import TelegramClient.Dialogs.ListStructure

/-! What the changes of a list of rows do to the rows in their order. -/

namespace TelegramClient.Dialogs.DialogsList

open Linked

variable {Key : Type} {l l' : DialogsList Key} {ids ids' A C : List RowId}
  {x y : RowId} {e : Entries Key}

/-- The list has the same rows, maybe in another order. -/
def Rearranged (l l' : DialogsList Key) (ids : List RowId) : Prop :=
  SameRows l l' ∧ ∃ ids', ids'.Perm ids ∧ WellFormed l' ids'

theorem Rearranged.refl (h : WellFormed l ids) : Rearranged l l ids :=
  ⟨SameRows.refl l, ids, List.Perm.refl ids, h⟩

/-! ## The rows around a row -/

theorem WellFormed.prev_of_mem (h : WellFormed l (A ++ x :: C)) :
    (l.rows x).bind Row.prev = A.getLast? := by
  have hwhole := h.whole
  rw [List.append_assoc, List.cons_append] at hwhole
  exact hwhole.prev_append

theorem WellFormed.next_of_mem (h : WellFormed l (A ++ x :: C)) :
    l.nextOf x = (C ++ [l.end_]).head? := by
  have hwhole := h.whole
  rw [List.append_assoc, List.cons_append] at hwhole
  exact hwhole.next_append

theorem WellFormed.last (h : WellFormed l ids) :
    (l.rows l.end_).bind Row.prev = ids.getLast? :=
  h.whole.prev_append

theorem WellFormed.key_of_mem (h : WellFormed l ids) (hx : x ∈ ids) :
    ∃ key, (l.rows x).bind Row.key = some key := by
  obtain ⟨key, hkey, _⟩ := h.keys x hx
  exact ⟨key, hkey⟩

theorem WellFormed.sortKey_of_mem (h : WellFormed l ids) (hx : x ∈ ids) :
    ∃ key, l.rows.key x = some key ∧ l.sortKey e x = some (e.sortKeyInChatList key) := by
  obtain ⟨key, hkey⟩ := h.key_of_mem hx
  exact ⟨key, hkey, by rw [sortKey, hkey]; rfl⟩

theorem WellFormed.end_notMem (h : WellFormed l ids) : l.end_ ∉ ids := by
  intro hmem
  exact (List.nodup_append.mp h.nodup).2.2 _ hmem _ (List.mem_singleton_self _) rfl

/-! ## Where a row goes -/

/-- The key of a row passes a test. -/
def Holds (l : DialogsList Key) (p : Key → Prop) (x : RowId) : Prop :=
  ∃ key, l.rows.key x = some key ∧ p key

/-- The search back stops before the rows `M`, at a row that fails the test. -/
theorem findBack_split {p : Key → Bool} {fuel : Nat} (h : WellFormed l (A ++ x :: C))
    (hfuel : A.length < fuel) :
    ∃ A₁ M y, A = A₁ ++ M ∧ (M ++ [x]).head? = some y ∧ l.findBack p fuel x = some y ∧
      (∀ m ∈ M, l.Holds (fun k => p k = true) m) ∧
      ∀ a ∈ A₁.getLast?, l.Holds (fun k => p k = false) a := by
  induction A using List.reverseRecOn generalizing x C fuel with
  | nil =>
    obtain ⟨fuel, rfl⟩ := Nat.exists_eq_succ_of_ne_zero (Nat.pos_iff_ne_zero.mp hfuel)
    obtain ⟨r, hr⟩ := Option.isSome_iff_exists.mp (h.isSome (x := x) (by simp))
    have hprev := h.prev_of_mem
    rw [hr, Option.bind_some] at hprev
    refine ⟨[], [], x, rfl, rfl, ?_, by simp, by simp⟩
    rw [findBack, hr, Option.bind_eq_bind, Option.bind_some, hprev]
    rfl
  | append_singleton A a ih =>
    obtain ⟨fuel, rfl⟩ := Nat.exists_eq_succ_of_ne_zero (Nat.ne_of_gt (Nat.zero_lt_of_lt hfuel))
    obtain ⟨r, hr⟩ := Option.isSome_iff_exists.mp (h.isSome (x := x) (by simp))
    have hprev := h.prev_of_mem
    rw [hr, Option.bind_some, List.getLast?_concat] at hprev
    obtain ⟨key, hkey⟩ := h.key_of_mem (x := a) (by simp)
    rw [findBack, hr, Option.bind_eq_bind, Option.bind_some, hprev]
    dsimp only
    rw [hkey, Option.bind_eq_bind, Option.bind_some]
    by_cases hp : p key
    · rw [if_pos hp]
      rw [List.append_assoc, List.singleton_append] at h
      obtain ⟨A₁, M, y, rfl, hy, hfind, hM, hA₁⟩ := ih h (by simpa using hfuel)
      refine ⟨A₁, M ++ [a], y, by simp, ?_, hfind, ?_, hA₁⟩
      · rw [List.head?_append, hy]
        rfl
      · intro m hm
        rcases List.mem_append.mp hm with hm | hm
        · exact hM m hm
        · rw [List.mem_singleton.mp hm]
          exact ⟨key, hkey, hp⟩
    · rw [if_neg hp]
      refine ⟨A ++ [a], [], x, by simp, rfl, rfl, by simp, ?_⟩
      intro b hb
      obtain rfl : a = b := by simpa using hb
      exact ⟨key, hkey, by simpa using hp⟩

/-- The search on stops behind the rows `B`, at a row that fails the test. -/
theorem findForward_split {p : Key → Bool} {fuel : Nat} (h : WellFormed l (A ++ x :: C))
    (hfuel : C.length < fuel) :
    ∃ B C₁ y, C = B ++ C₁ ∧ (x :: B).getLast? = some y ∧ l.findForward p fuel x = some y ∧
      (∀ b ∈ B.getLast?, l.Holds (fun k => p k = true) b) ∧
      ∀ c ∈ C₁.head?, l.Holds (fun k => p k = false) c := by
  induction C generalizing x A fuel with
  | nil =>
    obtain ⟨fuel, rfl⟩ := Nat.exists_eq_succ_of_ne_zero (Nat.pos_iff_ne_zero.mp hfuel)
    refine ⟨[], [], x, rfl, rfl, ?_, by simp, by simp⟩
    rw [findForward, h.next_of_mem]
    simp
  | cons c C ih =>
    obtain ⟨fuel, rfl⟩ := Nat.exists_eq_succ_of_ne_zero (Nat.ne_of_gt (Nat.zero_lt_of_lt hfuel))
    have hc : c ≠ l.end_ := by
      rintro rfl
      exact h.end_notMem (by simp)
    obtain ⟨key, hkey⟩ := h.key_of_mem (x := c) (by simp)
    rw [findForward, h.next_of_mem, List.cons_append, List.head?_cons, Option.bind_eq_bind,
      Option.bind_some, if_neg hc, hkey, Option.bind_eq_bind, Option.bind_some]
    by_cases hp : p key
    · rw [if_pos hp]
      have h' : WellFormed l ((A ++ [x]) ++ c :: C) := by simpa using h
      obtain ⟨B, C₁, y, rfl, hy, hfind, hB, hC₁⟩ := ih h' (Nat.lt_of_succ_lt_succ hfuel)
      refine ⟨c :: B, C₁, y, rfl, ?_, hfind, ?_, hC₁⟩
      · rw [List.getLast?_cons_cons]
        exact hy
      · intro b hb
        cases B with
        | nil =>
          obtain rfl : c = b := by simpa using hb
          exact ⟨key, hkey, hp⟩
        | cons d B => exact hB b (by simpa using hb)
    · rw [if_neg hp]
      refine ⟨[], c :: C, x, rfl, rfl, rfl, by simp, ?_⟩
      intro b hb
      obtain rfl : c = b := by simpa using hb
      exact ⟨key, hkey, by simpa using hp⟩

/-- A row goes before the rows `M` that stand right before it. -/
theorem insertBefore_split {M : List RowId} (h : WellFormed l (A ++ M ++ x :: C))
    (hy : (M ++ [x]).head? = some y) :
    ∃ l', l.insertBefore x y = some (decide (M ≠ []), l') ∧ SameRows l l' ∧
      WellFormed l' (A ++ x :: (M ++ C)) := by
  cases M with
  | nil =>
    obtain rfl : x = y := by simpa using hy
    exact ⟨l, by simp [insertBefore], SameRows.refl l, by simpa using h⟩
  | cons b M =>
    obtain rfl : b = y := by simpa using hy
    obtain ⟨l', hrun, hsame, hwell⟩ := insertBefore_spec h
    exact ⟨l', by simpa using hrun, hsame, by simpa using hwell⟩

/-- A row goes behind the rows `B` that stand right behind it. -/
theorem insertAfter_split {B : List RowId} (h : WellFormed l (A ++ x :: (B ++ C)))
    (hy : (x :: B).getLast? = some y) :
    ∃ moved l', l.insertAfter x y = some (moved, l') ∧ SameRows l l' ∧
      WellFormed l' (A ++ B ++ x :: C) := by
  induction B using List.reverseRecOn with
  | nil =>
    obtain rfl : x = y := by simpa using hy
    exact ⟨false, l, by simp [insertAfter], SameRows.refl l, by simpa using h⟩
  | append_singleton B b =>
    obtain rfl : b = y := by
      rw [← List.cons_append, List.getLast?_concat] at hy
      exact Option.some.inj hy
    have h' : WellFormed l (A ++ x :: (B ++ b :: C)) := by simpa using h
    obtain ⟨l', hrun, hsame, hwell⟩ := insertAfter_spec h'
    exact ⟨true, l', hrun, hsame, by simpa using hwell⟩

/-! ## The changes -/

theorem WellFormed.steps_lt (h : WellFormed l (A ++ x :: C)) :
    A.length < l.steps ∧ C.length < l.steps := by
  have hlen := h.length_lt
  simp only [List.length_append, List.length_cons] at hlen
  constructor <;> omega

/-- A row of a list that goes elsewhere, with its neighbours there: `up` holds of the key of
the row before it and `down` of the one behind it. -/
def Placed (l l' : DialogsList Key) (A : List RowId) (x : RowId) (C : List RowId)
    (up down : Key → Prop) : Prop :=
  SameRows l l' ∧ ∃ A' C', A' ++ C' = A ++ C ∧ WellFormed l' (A' ++ x :: C') ∧
    (∀ a ∈ A'.getLast?, l.Holds up a) ∧ ∀ c ∈ C'.head?, l.Holds down c

theorem Placed.rearranged {up down : Key → Prop} (h : Placed l l' A x C up down) :
    Rearranged l l' (A ++ x :: C) := by
  obtain ⟨hsame, A', C', hrest, hwell, -, -⟩ := h
  refine ⟨hsame, _, ?_, hwell⟩
  refine List.perm_middle.trans (List.Perm.trans ?_ List.perm_middle.symm)
  rw [hrest]

theorem Holds.imp {p q : Key → Prop} (h : l.Holds p x) (hpq : ∀ k, p k → q k) : l.Holds q x := by
  obtain ⟨key, hkey, hp⟩ := h
  exact ⟨key, hkey, hpq key hp⟩

/-- What both searches find: the row goes up, or else down, as far as the tests say. -/
theorem placed_of_search {up down : Key → Prop} {A₁ M : List RowId}
    {search : DialogsList Key → Option RowId} (h : WellFormed l (A₁ ++ M ++ x :: C))
    (hy : (M ++ [x]).head? = some y) (hM : ∀ m ∈ M.head?, l.Holds down m)
    (hA₁ : ∀ a ∈ A₁.getLast?, l.Holds up a)
    (hsearch : M = [] → ∃ B C₁ z, C = B ++ C₁ ∧ (x :: B).getLast? = some z ∧
      search l = some z ∧ (∀ b ∈ B.getLast?, l.Holds up b) ∧
      ∀ c ∈ C₁.head?, l.Holds down c) :
    ∃ l', l.moveRow x y search = some l' ∧ Placed l l' (A₁ ++ M) x C up down := by
  by_cases hne : M = []
  · subst hne
    obtain rfl : x = y := by simpa using hy
    obtain ⟨B, C₁, z, rfl, hz, hfind, hB, hC₁⟩ := hsearch rfl
    rw [List.append_nil] at h
    obtain ⟨moved, l', hrun, hsame, hwell⟩ := insertAfter_split h hz
    refine ⟨l', ?_, hsame, A₁ ++ B, C₁, by simp, hwell, ?_, hC₁⟩
    · simp [moveRow, insertBefore, hfind, hrun]
    · intro a ha
      by_cases hB' : B = []
      · subst hB'
        rw [List.append_nil] at ha
        exact hA₁ a ha
      · rw [List.getLast?_append_of_ne_nil _ hB'] at ha
        exact hB a ha
  · obtain ⟨l', hrun, hsame, hwell⟩ := insertBefore_split h hy
    refine ⟨l', ?_, hsame, A₁, M ++ C, by simp, hwell, hA₁, ?_⟩
    · simp [moveRow, hrun, hne]
    · intro c hc
      rw [List.head?_append_of_ne_nil _ hne] at hc
      exact hM c hc

/-- A row placed by its name: the names up to it do not pass `back`, or come first. -/
theorem placeByName_placed (key : Key) (back : Int → Bool) (h : WellFormed l (A ++ x :: C)) :
    ∃ l', l.placeByName e key back x = some l' ∧ Placed l l' A x C
      (fun k => back (e.compareNames (e.chatListName k) (e.chatListName key)) = false ∨
        e.compareNames (e.chatListName k) (e.chatListName key) < 0)
      (fun k => back (e.compareNames (e.chatListName k) (e.chatListName key)) = true ∨
        0 ≤ e.compareNames (e.chatListName k) (e.chatListName key)) := by
  obtain ⟨A₁, M, y, rfl, hy, hfind, hM, hA₁⟩ := findBack_split
    (p := fun k => back (e.compareNames (e.chatListName k) (e.chatListName key))) h h.steps_lt.1
  rw [placeByName, hfind, Option.bind_eq_bind, Option.bind_some]
  refine placed_of_search h hy
    (fun m hm => (hM m (List.mem_of_mem_head? hm)).imp fun k hk => Or.inl hk)
    (fun a ha => (hA₁ a ha).imp fun k hk => Or.inl hk) ?_
  rintro rfl
  obtain rfl : x = y := by simpa using hy
  obtain ⟨B, C₁, z, hC, hz, hfind', hB, hC₁⟩ := findForward_split
    (p := fun k => e.compareNames (e.chatListName k) (e.chatListName key) < 0) h h.steps_lt.2
  refine ⟨B, C₁, z, hC, hz, hfind', fun b hb => (hB b hb).imp ?_, fun c hc => (hC₁ c hc).imp ?_⟩
  · intro k hk
    exact .inr (by simpa using hk)
  · intro k hk
    exact .inr (by simpa using hk)

theorem placeByName_spec (key : Key) (back : Int → Bool) (h : WellFormed l (A ++ x :: C)) :
    ∃ l', l.placeByName e key back x = some l' ∧ Rearranged l l' (A ++ x :: C) := by
  obtain ⟨l', hrun, hplaced⟩ := placeByName_placed (e := e) key back h
  exact ⟨l', hrun, hplaced.rearranged⟩

theorem moveToTop_spec (key : Key) (h : WellFormed l ids) :
    ∃ found l', l.moveToTop key = some (found, l') ∧ Rearranged l l' ids := by
  rw [moveToTop]
  cases hkey : l.rowByKey key with
  | none => exact ⟨false, l, rfl, Rearranged.refl h⟩
  | some row =>
    obtain ⟨A, C, rfl⟩ := List.append_of_mem (h.rowByKey key row hkey).1
    have hbegin : (A ++ [row]).head? = some l.begin_ := by
      have hhead := h.begin_
      cases A <;> simpa using hhead
    obtain ⟨l', hrun, hsame, hwell⟩ := insertBefore_split (A := []) (by simpa using h) hbegin
    refine ⟨true, l', by simp [hrun], hsame, _, ?_, hwell⟩
    exact List.perm_middle.symm

/-- The row before the place of a row has no lower key, and the one behind it has a lower
one. -/
theorem placeUp_split (key : UInt64) (h : WellFormed l (A ++ x :: C)) :
    ∃ A₁ M y, A = A₁ ++ M ∧ (M ++ [x]).head? = some y ∧ l.placeUp e key x = some y ∧
      (∀ m ∈ M.head?, l.Holds (fun k => e.sortKeyInChatList k < key) m) ∧
      ∀ a ∈ A₁.getLast?, l.Holds (fun k => key ≤ e.sortKeyInChatList k) a := by
  obtain ⟨A₁, M, z, hA, hz, hfind, hM, hA₁⟩ := findBack_split
    (p := fun k => e.sortKeyInChatList k < key) h h.steps_lt.1
  have hM' (m : RowId) (hm : m ∈ M.head?) : l.Holds (fun k => e.sortKeyInChatList k < key) m :=
    (hM m (List.mem_of_mem_head? hm)).imp fun k => by simp
  have hA₁' (a : RowId) (ha : a ∈ A₁.getLast?) :
      l.Holds (fun k => key ≤ e.sortKeyInChatList k) a :=
    (hA₁ a ha).imp fun k => by simp
  have hhead := h.begin_
  cases A with
  | nil =>
    obtain rfl : x = l.begin_ := by simpa using hhead
    exact ⟨A₁, M, z, hA, hz, by simp [placeUp, hfind], hM', hA₁'⟩
  | cons a A =>
    obtain rfl : a = l.begin_ := by simpa using hhead
    have hne : x ≠ l.begin_ := by
      rintro rfl
      have hnodup := h.nodup
      simp at hnodup
    obtain ⟨k, hkey, hk⟩ := h.sortKey_of_mem (e := e) (x := l.begin_) (by simp)
    by_cases hfirst : e.sortKeyInChatList k < key
    · refine ⟨[], l.begin_ :: A, l.begin_, rfl, rfl, by simp [placeUp, hne, hk, hfirst], ?_,
        by simp⟩
      intro m hm
      obtain rfl : l.begin_ = m := by simpa using hm
      exact ⟨k, hkey, hfirst⟩
    · exact ⟨A₁, M, z, hA, hz, by simp [placeUp, hne, hk, hfirst, hfind], hM', hA₁'⟩

/-- The row behind the place of a row has no higher key, and the one before it has a higher
one. -/
theorem placeDown_split (key : UInt64) (h : WellFormed l (A ++ x :: C)) :
    ∃ B C₁ y, C = B ++ C₁ ∧ (x :: B).getLast? = some y ∧ l.placeDown e key x = some y ∧
      (∀ b ∈ B.getLast?, l.Holds (fun k => key < e.sortKeyInChatList k) b) ∧
      ∀ c ∈ C₁.head?, l.Holds (fun k => e.sortKeyInChatList k ≤ key) c := by
  obtain ⟨B, C₁, z, hC, hz, hfind, hB, hC₁⟩ := findForward_split
    (p := fun k => key < e.sortKeyInChatList k) h h.steps_lt.2
  have hB' (b : RowId) (hb : b ∈ B.getLast?) : l.Holds (fun k => key < e.sortKeyInChatList k) b :=
    (hB b hb).imp fun k => by simp
  have hC₁' (c : RowId) (hc : c ∈ C₁.head?) : l.Holds (fun k => e.sortKeyInChatList k ≤ key) c :=
    (hC₁ c hc).imp fun k => by simp
  have hnext := h.next_of_mem
  cases C with
  | nil => exact ⟨B, C₁, z, hC, hz, by simp [placeDown, hnext, hfind], hB', hC₁'⟩
  | cons c C =>
    have hc : c ≠ l.end_ := by
      rintro rfl
      exact h.end_notMem (by simp)
    obtain ⟨last, hlastMem⟩ : ∃ last, (c :: C).getLast? = some last := by
      simp [List.getLast?_cons]
    have hlast : (l.rows l.end_).bind Row.prev = some last := by
      rw [h.last, List.getLast?_append, List.getLast?_cons_cons, hlastMem]
      rfl
    obtain ⟨k, hkey, hk⟩ := h.sortKey_of_mem (e := e) (x := last)
      (List.mem_append_right _ (List.mem_cons_of_mem _ (List.mem_of_getLast? hlastMem)))
    by_cases hbehind : key < e.sortKeyInChatList k
    · refine ⟨c :: C, [], last, by simp, ?_, by simp [placeDown, hnext, hc, hlast, hk, hbehind],
        ?_, by simp⟩
      · rw [List.getLast?_cons_cons]
        exact hlastMem
      · intro b hb
        obtain rfl : last = b := by
          rw [hlastMem] at hb
          exact Option.some.inj hb
        exact ⟨k, hkey, hbehind⟩
    · exact ⟨B, C₁, z, hC, hz, by simp [placeDown, hnext, hlast, hk, hbehind, hfind], hB',
        hC₁'⟩

theorem adjustByPos_placed {key : Key} (h : WellFormed l (A ++ x :: C))
    (hmode : l.sortMode = .date) (hkey : l.rows.key x = some key) :
    ∃ l', l.adjustByPos e x = some l' ∧ Placed l l' A x C
      (fun k => e.sortKeyInChatList key ≤ e.sortKeyInChatList k)
      (fun k => e.sortKeyInChatList k ≤ e.sortKeyInChatList key) := by
  have hsort : l.sortKey e x = some (e.sortKeyInChatList key) := by
    rw [sortKey]
    exact congrArg _ hkey
  obtain ⟨A₁, M, y, rfl, hy, hup, hM, hA₁⟩ :=
    placeUp_split (e := e) (e.sortKeyInChatList key) h
  rw [adjustByPos, if_neg (not_not_intro hmode), hsort, Option.bind_eq_bind, Option.bind_some, hup,
    Option.bind_eq_bind, Option.bind_some]
  refine placed_of_search h hy (fun m hm => (hM m hm).imp fun k => UInt64.le_of_lt) hA₁ ?_
  rintro rfl
  obtain rfl : x = y := by simpa using hy
  obtain ⟨B, C₁, z, hC, hz, hdown, hB, hC₁⟩ :=
    placeDown_split (e := e) (e.sortKeyInChatList key) h
  exact ⟨B, C₁, z, hC, hz, hdown, fun b hb => (hB b hb).imp fun k => UInt64.le_of_lt, hC₁⟩

theorem adjustByPos_spec (h : WellFormed l ids) (hx : x ∈ ids) :
    ∃ l', l.adjustByPos e x = some l' ∧ Rearranged l l' ids := by
  obtain ⟨A, C, rfl⟩ := List.append_of_mem hx
  by_cases hmode : l.sortMode = .date
  · obtain ⟨key, hkey⟩ := h.key_of_mem hx
    obtain ⟨l', hrun, hplaced⟩ := adjustByPos_placed (e := e) h hmode hkey
    exact ⟨l', hrun, hplaced.rearranged⟩
  · exact ⟨l, by simp [adjustByPos, hmode], Rearranged.refl h⟩

/-! ## A new row -/

variable [DecidableEq Key]

omit [DecidableEq Key] in
theorem new_row (m : Memory Key) (r : Row Key) :
    Memory.links (Function.update m x (some r)) =
        ⟨Function.update m.links.next x r.next, Function.update m.links.prev x r.prev⟩ ∧
      Memory.pos (Function.update m x (some r)) = Function.update m.pos x (some r.pos) ∧
      Memory.key (Function.update m x (some r)) = Function.update m.key x r.key := by
  refine ⟨?_, ?_, ?_⟩
  · simp only [Memory.links, Links.mk.injEq]
    constructor <;> funext y <;> by_cases hy : y = x <;> simp [hy]
  · funext y
    by_cases hy : y = x <;> simp [Memory.pos, hy]
  · funext y
    by_cases hy : y = x <;> simp [Memory.key, hy]

/-- The state after `appendRow`: the list with its new row. -/
structure Appended (l l' : DialogsList Key) (key : Key) : Prop where
  end_ : l'.end_ = l.end_
  sortMode : l'.sortMode = l.sortMode
  count : l'.count = l.count + 1
  fresh : l'.fresh = l.fresh + 1
  rowByKey : l'.rowByKey = Function.update l.rowByKey key (some l.fresh)
  key : l'.rows.key = Function.update l.rows.key l.fresh (some key)

omit [DecidableEq Key] in
theorem WellFormed.fresh_notMem (h : WellFormed l ids) : l.fresh ∉ ids ++ [l.end_] :=
  fun hmem => absurd (h.fresh _ hmem) (Nat.lt_irrefl _)

theorem Appended.wellFormed {key : Key} (happended : Appended l l' key) (h : WellFormed l ids)
    (hkey : l.rowByKey key = none)
    (hlinks : l'.rows.links =
      join (join l.rows.links (some l.fresh) l.end_) (l.rows.links.prev l.end_) l.fresh)
    (hpos : l'.rows.pos = Function.update (Function.update l.rows.pos l.fresh
      (some (ids.length : Int))) l.end_ (some ((ids.length : Int) + 1)))
    (hbegin : (ids ++ [l.fresh]).head? = some l'.begin_)
    (hcurrent : l'.current ∈ ids ++ [l.fresh, l.end_]) : WellFormed l' (ids ++ [l.fresh]) := by
  have hfresh := h.fresh_notMem
  simp only [List.mem_append, List.mem_singleton, not_or] at hfresh
  have hfull : ids ++ [l.fresh] ++ [l'.end_] = ids ++ [l.fresh, l.end_] := by
    simp [happended.end_]
  have hnodup : (ids ++ [l.fresh, l.end_]).Nodup := by
    rw [List.nodup_middle, List.nodup_cons]
    exact ⟨h.fresh_notMem, h.nodup⟩
  have hlive (x : RowId) : (l'.rows x).isSome ↔ x = l.fresh ∨ (l.rows x).isSome := by
    rw [← Memory.isSome_pos, hpos, ← Memory.isSome_pos]
    have hend : (l.rows.pos l.end_).isSome := by
      rw [Memory.isSome_pos]
      exact h.isSome (by simp)
    by_cases hxe : x = l.end_
    · simp [hxe, hend]
    · by_cases hxf : x = l.fresh <;> simp [hxe, hxf, hfresh.2]
  constructor
  · rw [hfull, hlinks]
    exact h.whole.insert hnodup
  · rw [hfull]
    exact hnodup
  · have hnumbered := h.numbered
    rw [hfull, numbered_append]
    rw [numbered_append] at hnumbered
    refine ⟨hnumbered.1.congr ?_, ?_, ?_, trivial⟩
    · intro x hx
      have hxf : x ≠ l.fresh := by
        rintro rfl
        exact hfresh.1 hx
      have hxe : x ≠ l.end_ := by
        rintro rfl
        exact h.end_notMem hx
      rw [hpos, Function.update_of_ne hxe, Function.update_of_ne hxf]
    · rw [hpos, Function.update_of_ne hfresh.2, Function.update_self]
      simp
    · rw [hpos, Function.update_self]
      simp
  · intro x hx
    rw [hfull]
    rcases (hlive x).mp hx with rfl | hx
    · simp
    · have hmem := h.live x hx
      simp only [List.mem_append, List.mem_singleton] at hmem
      rcases hmem with hmem | rfl <;> simp [*]
  · intro x hx
    rw [hfull] at hx
    rw [happended.fresh]
    have hmem : x = l.fresh ∨ x ∈ ids ++ [l.end_] := by
      simp only [List.mem_append, List.mem_cons, List.not_mem_nil, or_false] at hx ⊢
      tauto
    rcases hmem with rfl | hmem
    · exact Nat.lt_succ_self _
    · exact Nat.lt_succ_of_lt (h.fresh x hmem)
  · rw [← hbegin, List.head?_append]
    simp
  · rw [happended.count, h.count, List.length_append]
    simp
  · intro x hx
    rw [happended.key, happended.rowByKey]
    rcases List.mem_append.mp hx with hmem | hmem
    · obtain ⟨k, hk, hrow⟩ := h.keys x hmem
      have hxf : x ≠ l.fresh := by
        rintro rfl
        exact hfresh.1 hmem
      have hkk : k ≠ key := by
        rintro rfl
        rw [hkey] at hrow
        cases hrow
      exact ⟨k, by rw [Function.update_of_ne hxf, hk], by rw [Function.update_of_ne hkk, hrow]⟩
    · obtain rfl := List.mem_singleton.mp hmem
      exact ⟨key, by rw [Function.update_self], by rw [Function.update_self]⟩
  · intro k x hk
    rw [happended.rowByKey] at hk
    rw [happended.key]
    by_cases hkk : k = key
    · subst hkk
      obtain rfl : l.fresh = x := by simpa using hk
      simp
    · rw [Function.update_of_ne hkk] at hk
      obtain ⟨hmem, hkey'⟩ := h.rowByKey k x hk
      have hxf : x ≠ l.fresh := by
        rintro rfl
        exact hfresh.1 hmem
      exact ⟨List.mem_append_left _ hmem, by rw [Function.update_of_ne hxf, hkey']⟩
  · rw [hfull]
    exact hcurrent

theorem appendRow_spec {key : Key} (h : WellFormed l ids) (hkey : l.rowByKey key = none) :
    ∃ l', l.appendRow key = some (l.fresh, l') ∧ Appended l l' key ∧
      WellFormed l' (ids ++ [l.fresh]) := by
  obtain ⟨last, hlast⟩ := Option.isSome_iff_exists.mp (h.isSome (x := l.end_) (by simp))
  have hfresh : l.fresh ∉ ids ++ [l.end_] := fun hmem => absurd (h.fresh _ hmem) (Nat.lt_irrefl _)
  have hne : l.end_ ≠ l.fresh := by
    intro he
    exact hfresh (by simp [← he])
  have hprev : last.prev = ids.getLast? := by
    have hp := h.last
    rwa [hlast, Option.bind_some] at hp
  have hpos : last.pos = ids.length := by
    have hp := h.numbered.getElem? (i := ids.length) (x := l.end_) (by simp)
    simpa [Memory.pos, hlast] using hp
  obtain ⟨hlinks₀, hpos₀, hkey₀⟩ := new_row (x := l.fresh) l.rows
    ⟨some key, last.prev, some l.end_, last.pos⟩
  obtain ⟨rows₀, hrows₀⟩ : ∃ rows₀, rows₀ = Function.update l.rows l.fresh
    (some ⟨some key, last.prev, some l.end_, last.pos⟩) := ⟨_, rfl⟩
  rw [← hrows₀] at hlinks₀ hpos₀ hkey₀
  have hlive₀ (x : RowId) (hx : x ∈ ids ++ [l.end_]) : (rows₀ x).isSome := by
    have hxf : x ≠ l.fresh := by
      rintro rfl
      exact hfresh hx
    rw [hrows₀, Function.update_of_ne hxf]
    exact h.isSome hx
  obtain ⟨rows₁, hset₁, h₁⟩ := modifyRow_pos
    (l := { l with rows := rows₀, fresh := l.fresh + 1 }) (hlive₀ l.end_ (by simp)) (· + 1)
  have hlive₁ (x : RowId) (hx : x ∈ ids ++ [l.end_]) : (rows₁ x).isSome := by
    rw [h₁.isSome]
    by_cases hxe : x = l.end_
    · subst hxe
      have hend := hlive₀ l.end_ hx
      rw [← Memory.isSome_pos] at hend
      simpa using hend
    · rw [Function.update_of_ne hxe, Memory.isSome_pos]
      exact hlive₀ x hx
  have hpos₁ : rows₁.pos = Function.update (Function.update l.rows.pos l.fresh
      (some (ids.length : Int))) l.end_ (some ((ids.length : Int) + 1)) := by
    have hend : l.rows.pos l.end_ = some last.pos := by simp [Memory.pos, hlast]
    rw [h₁.pos]
    simp only [hpos₀, hpos]
    rw [Function.update_of_ne hne, hend, hpos]
    rfl
  -- the row before the new one, if there is one, and the row behind the last one
  obtain ⟨rows₂, hset₂, h₂⟩ : ∃ rows₂,
      DialogsList.linkLast { l with rows := rows₁, fresh := l.fresh + 1 } last.prev l.fresh =
        some { l with
          rows := rows₂
          fresh := l.fresh + 1
          begin_ := if ids = [] then l.fresh else l.begin_
          current := if ids = [] then l.fresh else l.current } ∧
      Relinked rows₁ rows₂ ⟨last.prev.elim rows₁.links.next fun p =>
        Function.update rows₁.links.next p (some l.fresh), rows₁.links.prev⟩ := by
    have hhead := h.begin_
    by_cases hids : ids = []
    · subst hids
      have hbegin : l.begin_ = l.end_ := by simpa using hhead.symm
      have hlastNone : last.prev = none := hprev
      exact ⟨rows₁, by simp [linkLast, hbegin], by rw [hlastNone]; rfl, rfl, rfl⟩
    · have hbegin : l.begin_ ≠ l.end_ := by
        intro he
        obtain ⟨a, rest, rfl⟩ := List.exists_cons_of_ne_nil hids
        obtain rfl : a = l.begin_ := by simpa using hhead
        exact h.end_notMem (by simp [← he])
      have hlastSome := List.getLast?_eq_getLast_of_ne_nil hids
      obtain ⟨rows₂, hset₂, h₂⟩ := modifyRow_next
        (l := { l with rows := rows₁, fresh := l.fresh + 1 })
        (hlive₁ (ids.getLast hids) (List.mem_append_left _ (List.getLast_mem hids)))
        (some l.fresh)
      refine ⟨rows₂, ?_, ?_, h₂.pos, h₂.key⟩
      · rw [linkLast, if_neg hbegin, hprev, hlastSome, Option.bind_some, hset₂]
        simp [hids]
      · rw [hprev, hlastSome]
        exact h₂.links
  have hlive₂ : (rows₂ l.end_).isSome := by
    rw [h₂.isSome]
    exact hlive₁ l.end_ (by simp)
  obtain ⟨rows₃, hset₃, h₃⟩ := modifyRow_prev
    (l := { l with
      rows := rows₂
      fresh := l.fresh + 1
      begin_ := if ids = [] then l.fresh else l.begin_
      current := if ids = [] then l.fresh else l.current
      rowByKey := Function.update l.rowByKey key (some l.fresh)
      count := l.count + 1 }) hlive₂ (some l.fresh)
  have hlinks : rows₃.links =
      join (join l.rows.links (some l.fresh) l.end_) (l.rows.links.prev l.end_) l.fresh := by
    have hlastPrev : l.rows.links.prev l.end_ = last.prev := by simp [Memory.links, hlast]
    rw [h₃.links, hlastPrev]
    simp only [h₂.links, h₁.links, hlinks₀]
    rw [Function.update_comm hne.symm]
    cases last.prev <;> rfl
  have hkeys : rows₃.key = Function.update l.rows.key l.fresh (some key) := by
    rw [h₃.key, h₂.key, h₁.key]
    exact hkey₀
  have hpos₃ : rows₃.pos = rows₁.pos := by rw [h₃.pos, h₂.pos]
  have happended : Appended l { l with
      rows := rows₃
      fresh := l.fresh + 1
      begin_ := if ids = [] then l.fresh else l.begin_
      current := if ids = [] then l.fresh else l.current
      rowByKey := Function.update l.rowByKey key (some l.fresh)
      count := l.count + 1 } key := ⟨rfl, rfl, rfl, rfl, rfl, hkeys⟩
  refine ⟨_, ?_, happended, ?_⟩
  · rw [appendRow, hlast, Option.bind_eq_bind, Option.bind_some]
    simp only [← hrows₀]
    rw [hset₁, Option.bind_eq_bind, Option.bind_some]
    rw [hset₂, Option.bind_some]
    simp only [hkey, Option.getD_none]
    rw [hset₃]
    rfl
  · apply happended.wellFormed h hkey hlinks (hpos₃.trans hpos₁)
    · cases hids : ids with
      | nil => simp
      | cons a rest =>
        have hhead := h.begin_
        rw [hids] at hhead
        simpa using hhead
    · show (if ids = [] then l.fresh else l.current) ∈ ids ++ [l.fresh, l.end_]
      split
      · simp
      · have hcurrent := h.current
        simp only [List.mem_append, List.mem_cons, List.not_mem_nil, or_false] at hcurrent ⊢
        tauto

/-! ## A row deleted -/

omit [DecidableEq Key] in
theorem freed_row (m : Memory Key) :
    (∀ y, y ≠ x → (Memory.links (Function.update m x none)).next y = m.links.next y ∧
        (Memory.links (Function.update m x none)).prev y = m.links.prev y) ∧
      Memory.pos (Function.update m x none) = Function.update m.pos x none ∧
      Memory.key (Function.update m x none) = Function.update m.key x none := by
  refine ⟨?_, ?_, ?_⟩
  · intro y hy
    simp [Memory.links, hy]
  · funext y
    by_cases hy : y = x <;> simp [Memory.pos, hy]
  · funext y
    by_cases hy : y = x <;> simp [Memory.key, hy]

/-- The state after `del`: the list without a row. -/
structure Deleted (l l' : DialogsList Key) (key : Key) (x : RowId) : Prop where
  end_ : l'.end_ = l.end_
  sortMode : l'.sortMode = l.sortMode
  count : l'.count = l.count - 1
  fresh : l'.fresh = l.fresh
  rowByKey : l'.rowByKey = Function.update l.rowByKey key none
  key : l'.rows.key = Function.update l.rows.key x none

theorem Deleted.wellFormed {key : Key} (hdeleted : Deleted l l' key x)
    (h : WellFormed l (A ++ x :: C)) (hkey : l.rowByKey key = some x)
    (hwhole : Whole l'.rows.links (A ++ C ++ [l.end_]))
    (hpos : l'.rows.pos = fun y =>
      if y = x then none else if y ∈ C ++ [l.end_] then (l.rows.pos y).map (· - 1)
      else l.rows.pos y)
    (hbegin : (A ++ C ++ [l.end_]).head? = some l'.begin_)
    (hcurrent : l'.current ∈ A ++ C ++ [l.end_]) : WellFormed l' (A ++ C) := by
  have hend := hdeleted.end_
  have hfull : A ++ x :: C ++ [l.end_] = A ++ x :: (C ++ [l.end_]) := by simp
  have hnodup := h.nodup
  rw [hfull] at hnodup
  have hmem (y : RowId) : y ∈ A ++ C ++ [l.end_] ↔ y ≠ x ∧ y ∈ A ++ x :: C ++ [l.end_] := by
    have hx := (List.nodup_cons.mp (List.nodup_middle.mp hnodup)).1
    rw [hfull]
    simp only [List.mem_append, List.mem_cons, List.not_mem_nil, or_false] at hx ⊢
    constructor
    · intro hy
      refine ⟨?_, by tauto⟩
      rintro rfl
      tauto
    · tauto
  have hids (y : RowId) : y ∈ A ++ C ↔ y ≠ x ∧ y ∈ A ++ x :: C := by
    have hx := (List.nodup_cons.mp (List.nodup_middle.mp hnodup)).1
    simp only [List.mem_append, List.mem_cons, List.not_mem_nil, or_false] at hx ⊢
    constructor
    · intro hy
      refine ⟨?_, by tauto⟩
      rintro rfl
      tauto
    · tauto
  constructor
  · rw [hend]
    exact hwhole
  · rw [hend]
    exact hnodup.sublist (by simp)
  · have hnumbered := h.numbered
    rw [hfull, numbered_append] at hnumbered
    obtain ⟨hA, -, hC⟩ := hnumbered
    rw [hend, List.append_assoc, numbered_append]
    obtain ⟨-, hxC, hdisjoint⟩ := List.nodup_append.mp hnodup
    have hback : (0 : Int) + A.length + 1 + -1 = 0 + A.length := by omega
    refine ⟨hA.congr ?_, hback ▸ hC.shift ?_⟩
    · intro a ha
      have hax : a ≠ x := fun he => hdisjoint a ha x List.mem_cons_self he
      have haC : a ∉ C ++ [l.end_] := fun hc => hdisjoint a ha a (List.mem_cons_of_mem _ hc) rfl
      rw [hpos]
      simp only [hax, if_false, haC]
    · intro c hc
      have hcx : c ≠ x := by
        rintro rfl
        exact (List.nodup_cons.mp hxC).1 hc
      rw [hpos]
      simp only [hcx, if_false, hc, if_true]
      rfl
  · intro y hy
    rw [← Memory.isSome_pos, hpos] at hy
    rw [hend, hmem]
    by_cases hyx : y = x
    · simp [hyx] at hy
    · refine ⟨hyx, h.live y ?_⟩
      rw [← Memory.isSome_pos]
      simp only [hyx, if_false] at hy
      split at hy
      · simpa using hy
      · exact hy
  · intro y hy
    rw [hend, hmem] at hy
    rw [hdeleted.fresh]
    exact h.fresh y hy.2
  · rw [hend]
    exact hbegin
  · rw [hdeleted.count, h.count]
    simp only [List.length_append, List.length_cons]
    push_cast
    omega
  · intro y hy
    obtain ⟨hyx, hmem⟩ := (hids y).mp hy
    obtain ⟨k, hk, hrow⟩ := h.keys y hmem
    have hkk : k ≠ key := by
      rintro rfl
      rw [hkey] at hrow
      exact hyx (Option.some.inj hrow).symm
    rw [hdeleted.key, hdeleted.rowByKey]
    exact ⟨k, by rw [Function.update_of_ne hyx, hk], by rw [Function.update_of_ne hkk, hrow]⟩
  · intro k y hk
    rw [hdeleted.rowByKey] at hk
    by_cases hkk : k = key
    · simp [hkk] at hk
    · rw [Function.update_of_ne hkk] at hk
      obtain ⟨hmem, hky⟩ := h.rowByKey k y hk
      have hyx : y ≠ x := by
        rintro rfl
        have hkx := (h.rowByKey key y hkey).2
        rw [hky] at hkx
        exact hkk (Option.some.inj hkx)
      rw [hdeleted.key, hids]
      exact ⟨⟨hyx, hmem⟩, by rw [Function.update_of_ne hyx, hky]⟩
  · rw [hend]
    exact hcurrent

theorem del_spec {key : Key} (h : WellFormed l (A ++ x :: C)) (hkey : l.rowByKey key = some x) :
    ∃ l', l.del key = some (true, l') ∧ Deleted l l' key x ∧ WellFormed l' (A ++ C) := by
  have hfull : A ++ x :: C ++ [l.end_] = A ++ x :: (C ++ [l.end_]) := by simp
  have hnodup := h.nodup
  have hwhole := h.whole
  rw [hfull] at hnodup hwhole
  have hC : (C ++ [l.end_]).Nodup := hnodup.sublist (by simp)
  obtain ⟨y, rest, hrest⟩ : ∃ y rest, C ++ [l.end_] = y :: rest := by
    cases C <;> simp
  have hnext : l.nextOf x = some y := by
    rw [h.next_of_mem, hrest]
    rfl
  obtain ⟨current, hcurrent⟩ : ∃ current, current = if x = l.current then y else l.current :=
    ⟨_, rfl⟩
  have hcurrentOff : (if x = l.current then { l with current := y } else l) =
      { l with current := current } := by
    rw [hcurrent]
    split <;> rfl
  -- the rows behind
  obtain ⟨rows₁, hclose, h₁⟩ := closeGap_eq (l := { l with current := current }) (n := y) (C := C) (by
      have hchain := hwhole.chain
      rw [show A ++ x :: (C ++ [l.end_]) = (A ++ [x]) ++ (C ++ [l.end_]) by simp] at hchain
      exact hchain.right_of_append) (by rw [hrest]; rfl) hC
    (fun c hc => h.isSome (by simp [hc])) h.steps_lt.2
  have hendC : l.end_ ∉ C := fun hmem =>
    (List.nodup_append.mp hC).2.2 _ hmem _ (List.mem_singleton_self _) rfl
  have hlive₁ (z : RowId) (hz : z ∈ A ++ x :: C ++ [l.end_]) : (rows₁ z).isSome := by
    have hpos := h.isSome hz
    rw [← Memory.isSome_pos] at hpos
    rw [h₁.isSome]
    split
    · simpa using hpos
    · exact hpos
  -- the row behind the last one
  obtain ⟨rows₂, hset₂, h₂⟩ := modifyRow_pos (l := { l with current := current, rows := rows₁ })
    (hlive₁ l.end_ (by simp)) (· - 1)
  have hlinks₂ : rows₂.links = l.rows.links := by rw [h₂.links, h₁.links]
  have hpos₂ : rows₂.pos = fun z =>
      if z ∈ C ++ [l.end_] then (l.rows.pos z).map (· - 1) else l.rows.pos z := by
    rw [h₂.pos]
    simp only [h₁.pos]
    funext z
    by_cases hz : z = l.end_
    · simp [hz, hendC]
    · simp [hz]
  have hlive₂ (z : RowId) (hz : z ∈ A ++ x :: y :: rest) : (rows₂ z).isSome := by
    rw [← hrest, ← hfull] at hz
    have hpos := h.isSome hz
    rw [← Memory.isSome_pos] at hpos
    rw [← Memory.isSome_pos, hpos₂]
    dsimp only
    split
    · simpa using hpos
    · exact hpos
  -- the row itself
  rw [hrest] at hwhole hnodup
  obtain ⟨rows₃, hremove, h₃, hwhole₃⟩ := remove_spec
    (l := { l with current := current, rows := rows₂ }) (by rw [hlinks₂]; exact hwhole) hnodup hlive₂
  obtain ⟨hlinks₄, hpos₄, hkey₄⟩ := freed_row (x := x) rows₃
  have hdeleted : Deleted l { l with
      rows := Function.update rows₃ x none
      begin_ := if A = [] then y else l.begin_
      current := current
      count := l.count - 1
      rowByKey := Function.update l.rowByKey key none } key x :=
    ⟨rfl, rfl, rfl, rfl, rfl, by rw [hkey₄, h₃.key, h₂.key, h₁.key]⟩
  refine ⟨_, ?_, hdeleted, hdeleted.wellFormed h hkey ?_ ?_ ?_ ?_⟩
  · rw [del, hkey]
    dsimp only
    rw [hnext, Option.bind_eq_bind, Option.bind_some]
    simp only [hcurrentOff]
    have hclose' : closeGap (DialogsList.steps { l with current := current }) y
        { l with current := current } = some { l with current := current, rows := rows₁ } := hclose
    rw [hclose', Option.bind_eq_bind, Option.bind_some, hset₂, Option.bind_some, hremove]
    rfl
  · rw [List.append_assoc, hrest]
    refine hwhole₃.congr ?_
    intro z hz
    apply hlinks₄
    rintro rfl
    have hx := (List.nodup_cons.mp (List.nodup_middle.mp hnodup)).1
    exact hx hz
  · rw [hpos₄, h₃.pos]
    simp only [hpos₂]
    funext z
    by_cases hz : z = x <;> simp [hz]
  · rw [List.append_assoc, hrest]
    cases A with
    | nil => rfl
    | cons a A => exact h.begin_
  · rw [List.append_assoc, hrest]
    show current ∈ _
    rw [hcurrent]
    split
    · simp
    · rename_i hne
      have hmem := h.current
      rw [hfull, hrest] at hmem
      simp only [List.mem_append, List.mem_cons] at hmem ⊢
      tauto

/-! ## Adding -/

/-- A list with one more row, for a new key. -/
structure Added (l l' : DialogsList Key) (ids : List RowId) (key : Key) : Prop where
  end_ : l'.end_ = l.end_
  sortMode : l'.sortMode = l.sortMode
  rowByKey : l'.rowByKey = Function.update l.rowByKey key (some l.fresh)
  wellFormed : ∃ ids', ids'.Perm (l.fresh :: ids) ∧ WellFormed l' ids'

theorem Rearranged.added {l₁ : DialogsList Key} {key : Key} (happended : Appended l l₁ key)
    (h : Rearranged l₁ l' (ids ++ [l.fresh])) : Added l l' ids key := by
  obtain ⟨hsame, ids', hperm, hwell⟩ := h
  exact ⟨hsame.end_.trans happended.end_, hsame.sortMode.trans happended.sortMode,
    hsame.rowByKey.trans happended.rowByKey, ids',
    hperm.trans (List.perm_append_singleton _ _), hwell⟩

theorem addToEnd_spec {key : Key} (h : WellFormed l ids) (hkey : l.rowByKey key = none) :
    ∃ l', l.addToEnd e key = some (l.fresh, l') ∧ Added l l' ids key := by
  obtain ⟨l₁, happend, happended, hwell⟩ := appendRow_spec h hkey
  rw [addToEnd, happend, Option.bind_eq_bind, Option.bind_some]
  dsimp only
  split
  · obtain ⟨l', hrun, hl'⟩ := adjustByPos_spec (e := e) hwell (x := l.fresh) (by simp)
    exact ⟨l', by rw [hrun]; rfl, hl'.added happended⟩
  · exact ⟨l₁, rfl, (Rearranged.refl hwell).added happended⟩

theorem addByName_spec {key : Key} (h : WellFormed l ids) (hkey : l.rowByKey key = none) :
    (l.addByName e key = some (none, l) ∧ l.sortMode ≠ .name) ∨
      ∃ l', l.addByName e key = some (some l.fresh, l') ∧ l.sortMode = .name ∧
        Added l l' ids key := by
  by_cases hmode : l.sortMode = .name
  · obtain ⟨l₁, happend, happended, hwell⟩ := appendRow_spec h hkey
    have hadd : l.addToEnd e key = some (l.fresh, l₁) := by
      rw [addToEnd, happend, Option.bind_eq_bind, Option.bind_some]
      simp [happended.sortMode, hmode]
    obtain ⟨l', hplace, hl'⟩ := placeByName_spec (e := e) key (0 < ·) hwell
    refine .inr ⟨l', ?_, hmode, hl'.added happended⟩
    rw [addByName, if_neg (by simp [hmode]), hadd, Option.bind_eq_bind, Option.bind_some]
    dsimp only
    rw [hplace]
    rfl
  · exact .inl ⟨by simp [addByName, hmode], hmode⟩

omit [DecidableEq Key] in
theorem adjustByName_spec (key : Key) (h : WellFormed l ids) :
    ∃ row l', l.adjustByName e key = some (row, l') ∧ Rearranged l l' ids ∧
      row = if l.sortMode = .name then l.rowByKey key else none := by
  rw [adjustByName]
  by_cases hmode : l.sortMode = .name
  · cases hrow : l.rowByKey key with
    | none => exact ⟨none, l, by simp [hmode], Rearranged.refl h, by simp [hmode]⟩
    | some row =>
      obtain ⟨A, C, rfl⟩ := List.append_of_mem (h.rowByKey key row hrow).1
      obtain ⟨l', hplace, hl'⟩ := placeByName_spec (e := e) key (· < 0) h
      exact ⟨some row, l', by simp [hmode, hplace], hl', by simp [hmode]⟩
  · exact ⟨none, l, by simp [hmode], Rearranged.refl h, by simp [hmode]⟩

/-! ## The row at a height -/

omit [DecidableEq Key] in
theorem WellFormed.withCurrent (h : WellFormed l ids) (hx : x ∈ ids ++ [l.end_]) :
    WellFormed { l with current := x } ids :=
  ⟨h.whole, h.nodup, h.numbered, h.live, h.fresh, h.begin_, h.count, h.keys, h.rowByKey, hx⟩

/-- Only the cursor is another one, and it stands on a row. -/
def CursorMoved (l l' : DialogsList Key) (ids : List RowId) : Prop :=
  ∃ x ∈ ids ++ [l.end_], l' = { l with current := x }

omit [DecidableEq Key] in
theorem currentBack_moved {pos : Int} {fuel : Nat} (h : WellFormed l ids)
    (hrun : currentBack pos fuel l = some l') : CursorMoved l l' ids := by
  induction fuel generalizing l with
  | zero => cases hrun
  | succ fuel ih =>
    simp only [currentBack, Option.bind_eq_bind, Option.bind_eq_some_iff] at hrun
    obtain ⟨r, hr, hrun⟩ := hrun
    split at hrun
    · obtain ⟨prev, hprev, hrun⟩ := Option.bind_eq_some_iff.mp hrun
      have hmem : prev ∈ ids ++ [l.end_] := by
        obtain ⟨A, C, hfull⟩ := List.append_of_mem h.current
        have hwhole := h.whole
        rw [hfull] at hwhole
        have hp := hwhole.prev_append
        rw [hfull]
        apply List.mem_append_left
        apply List.mem_of_getLast?
        rw [← hp]
        simp [Memory.links, hr, hprev]
      obtain ⟨x, hx, rfl⟩ := ih (h.withCurrent hmem) hrun
      exact ⟨x, hx, rfl⟩
    · obtain rfl := Option.some.inj hrun
      exact ⟨l.current, h.current, rfl⟩

omit [DecidableEq Key] in
theorem currentForward_moved {pos : Int} {fuel : Nat} (h : WellFormed l ids)
    (hrun : currentForward pos fuel l = some l') : CursorMoved l l' ids := by
  induction fuel generalizing l with
  | zero => cases hrun
  | succ fuel ih =>
    simp only [currentForward, Option.bind_eq_bind, Option.bind_eq_some_iff] at hrun
    obtain ⟨r, hr, hrun⟩ := hrun
    split at hrun
    · obtain ⟨next, hnext, hrun⟩ := Option.bind_eq_some_iff.mp hrun
      have hmem : next ∈ ids ++ [l.end_] := by
        obtain ⟨A, C, hfull⟩ := List.append_of_mem h.current
        have hwhole := h.whole
        rw [hfull] at hwhole
        have hn := hwhole.next_append
        rw [hfull]
        apply List.mem_append_right
        apply List.mem_cons_of_mem
        apply List.mem_of_mem_head?
        rw [← hn]
        simp [Memory.links, hr, hnext]
      obtain ⟨x, hx, rfl⟩ := ih (h.withCurrent hmem) hrun
      exact ⟨x, hx, rfl⟩
    · obtain rfl := Option.some.inj hrun
      exact ⟨l.current, h.current, rfl⟩

end TelegramClient.Dialogs.DialogsList
