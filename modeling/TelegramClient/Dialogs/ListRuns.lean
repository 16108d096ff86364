import TelegramClient.Dialogs.ListChanges

/-! A list of rows after any sequence of changes. -/

namespace TelegramClient.Dialogs.DialogsList

open Linked

variable {Key : Type} {l l' : DialogsList Key} {ids : List RowId} {x : RowId}

/-! ## The row at a height -/

theorem WellFormed.pos_getElem? (h : WellFormed l ids) {i : Nat}
    (hi : (ids ++ [l.end_])[i]? = some x) :
    ∃ r, l.rows x = some r ∧ r.pos = i ∧ r.next = (ids ++ [l.end_])[i + 1]? := by
  have hpos := h.numbered.getElem? hi
  have hnext := h.whole.next_getElem? hi
  simp only [Memory.pos, Option.map_eq_some_iff] at hpos
  obtain ⟨r, hr, hrpos⟩ := hpos
  refine ⟨r, hr, by omega, ?_⟩
  rw [← hnext]
  simp [Memory.links, hr]

/-- The cursor goes back to the row of a number, if it stands behind it. -/
theorem currentBack_eq {i k fuel : Nat} (h : WellFormed l ids)
    (hi : (ids ++ [l.end_])[i]? = some l.current) (hfuel : i < fuel) :
    ∃ y, (ids ++ [l.end_])[min i k]? = some y ∧
      currentBack k fuel l = some { l with current := y } := by
  induction i generalizing l fuel with
  | zero =>
    obtain ⟨fuel, rfl⟩ := Nat.exists_eq_succ_of_ne_zero (Nat.pos_iff_ne_zero.mp hfuel)
    obtain ⟨r, hr, hpos, -⟩ := h.pos_getElem? hi
    refine ⟨l.current, by simpa using hi, ?_⟩
    have hnot : ¬ ((k : Int) < r.pos ∧ l.current ≠ l.begin_) := by
      rintro ⟨hlt, -⟩
      omega
    rw [currentBack, hr, Option.bind_eq_bind, Option.bind_some, if_neg hnot]
  | succ i ih =>
    obtain ⟨fuel, rfl⟩ := Nat.exists_eq_succ_of_ne_zero (Nat.ne_of_gt (Nat.zero_lt_of_lt hfuel))
    obtain ⟨r, hr, hpos, -⟩ := h.pos_getElem? hi
    by_cases hk : k < i + 1
    · have hbegin : l.current ≠ l.begin_ := by
        intro he
        have hhead := h.begin_
        rw [List.head?_eq_getElem?, ← he, ← hi] at hhead
        have hlen := (List.getElem?_eq_some_iff.mp hi).1
        have := (List.getElem?_inj (by omega) h.nodup).mp hhead
        omega
      have hprev := h.whole.prev_getElem? hi
      obtain ⟨p, hp⟩ : ∃ p, (ids ++ [l.end_])[i]? = some p := by
        have hlen := (List.getElem?_eq_some_iff.mp hi).1
        exact ⟨_, List.getElem?_eq_getElem (by omega)⟩
      have hrprev : r.prev = some p := by
        rw [hp] at hprev
        simpa [Memory.links, hr] using hprev
      obtain ⟨y, hy, hrun⟩ := ih (h.withCurrent (List.mem_of_getElem? hp)) hp
        (Nat.lt_of_succ_lt_succ hfuel)
      refine ⟨y, ?_, ?_⟩
      · rw [show min (i + 1) k = min i k by omega]
        exact hy
      · have hback : (k : Int) < r.pos ∧ l.current ≠ l.begin_ := ⟨by omega, hbegin⟩
        rw [currentBack, hr, Option.bind_eq_bind, Option.bind_some, if_pos hback, hrprev]
        exact hrun
    · refine ⟨l.current, ?_, ?_⟩
      · rw [show min (i + 1) k = i + 1 by omega]
        exact hi
      · have hnot : ¬ ((k : Int) < r.pos ∧ l.current ≠ l.begin_) := by
          rintro ⟨hlt, -⟩
          omega
        rw [currentBack, hr, Option.bind_eq_bind, Option.bind_some, if_neg hnot]

theorem currentForward_eq {i k d fuel : Nat} (h : WellFormed l ids)
    (hi : (ids ++ [l.end_])[i]? = some l.current) (hd : i + d = k) (hk : k < ids.length)
    (hx : ids[k]? = some x) (hfuel : d < fuel) :
    currentForward k fuel l = some { l with current := x } := by
  induction d generalizing l i fuel with
  | zero =>
    obtain ⟨fuel, rfl⟩ := Nat.exists_eq_succ_of_ne_zero (Nat.pos_iff_ne_zero.mp hfuel)
    obtain ⟨r, hr, hpos, -⟩ := h.pos_getElem? hi
    obtain rfl : i = k := by omega
    obtain rfl : x = l.current := by
      rw [List.getElem?_append_left hk, hx] at hi
      exact Option.some.inj hi
    have hnot : ¬ (r.pos + 1 ≤ (i : Int) ∧ r.next ≠ some l.end_) := by
      rintro ⟨hle, -⟩
      omega
    rw [currentForward, hr, Option.bind_eq_bind, Option.bind_some, if_neg hnot]
  | succ d ih =>
    obtain ⟨fuel, rfl⟩ := Nat.exists_eq_succ_of_ne_zero (Nat.ne_of_gt (Nat.zero_lt_of_lt hfuel))
    obtain ⟨r, hr, hpos, hnext⟩ := h.pos_getElem? hi
    have hlt : i + 1 < ids.length := by omega
    obtain ⟨n, hn⟩ : ∃ n, ids[i + 1]? = some n := ⟨_, List.getElem?_eq_getElem hlt⟩
    have hn' : (ids ++ [l.end_])[i + 1]? = some n := by
      rw [List.getElem?_append_left hlt]
      exact hn
    have hrnext : r.next = some n := by rw [hnext, hn']
    have hend : r.next ≠ some l.end_ := by
      rw [hrnext]
      intro he
      rw [Option.some.inj he] at hn
      exact h.end_notMem (List.mem_of_getElem? hn)
    have hgo : r.pos + 1 ≤ (k : Int) ∧ r.next ≠ some l.end_ := ⟨by omega, hend⟩
    have hall := ih (h.withCurrent (List.mem_of_getElem? hn')) hn' (by omega)
      (Nat.lt_of_succ_lt_succ hfuel)
    rw [currentForward, hr, Option.bind_eq_bind, Option.bind_some, if_pos hgo, hrnext]
    exact hall

theorem rowAtY_eq {y height : Int} {k : Nat} (h : WellFormed l ids)
    (hnumber : rowNumber y height = some (k : Int)) (hx : ids[k]? = some x) :
    l.rowAtY y height = some (some x, { l with current := x }) := by
  have hk : k < ids.length := (List.getElem?_eq_some_iff.mp hx).1
  have hcount : l.count ≠ 0 := by
    rw [h.count]
    omega
  have hsteps := h.length_lt
  rw [List.length_append, List.length_singleton] at hsteps
  obtain ⟨i, hi⟩ := List.mem_iff_getElem?.mp h.current
  have hilen := (List.getElem?_eq_some_iff.mp hi).1
  rw [List.length_append, List.length_singleton] at hilen
  obtain ⟨z, hz, hback⟩ := currentBack_eq (k := k) h hi
    (show i < l.steps by omega)
  have hforward := currentForward_eq (h.withCurrent (List.mem_of_getElem? hz)) hz
    (d := k - min i k) (by omega) hk hx (show k - min i k < l.steps by omega)
  have hxfull : (ids ++ [l.end_])[k]? = some x := by
    rw [List.getElem?_append_left hk]
    exact hx
  obtain ⟨r, hr, hpos, -⟩ := h.pos_getElem? hxfull
  have hxend : x ≠ l.end_ := by
    rintro rfl
    exact h.end_notMem (List.mem_of_getElem? hx)
  have hadjust : l.adjustCurrent y height = some { l with current := x } := by
    rw [adjustCurrent, if_neg hcount, hnumber, Option.bind_eq_bind, Option.bind_some, hback]
    exact hforward
  rw [rowAtY, hadjust, Option.bind_eq_bind, Option.bind_some]
  simp [hxend, hr, hnumber, hpos]

/-! ## Runs -/

variable [DecidableEq Key]

/-- A change of a list, with what the entries say when it is made. -/
inductive Operation (Key : Type) where
  | addToEnd (e : Entries Key) (key : Key)
  | addByName (e : Entries Key) (key : Key)
  | adjustByName (e : Entries Key) (key : Key)
  | adjustByPos (e : Entries Key) (row : RowId)
  | moveToTop (key : Key)
  | del (key : Key)
  | rowAtY (y h : Int)

def step (l : DialogsList Key) : Operation Key → Option (DialogsList Key)
  | .addToEnd e key => (l.addToEnd e key).map Prod.snd
  | .addByName e key => (l.addByName e key).map Prod.snd
  | .adjustByName e key => (l.adjustByName e key).map Prod.snd
  | .adjustByPos e row => l.adjustByPos e row
  | .moveToTop key => (l.moveToTop key).map Prod.snd
  | .del key => (l.del key).map Prod.snd
  | .rowAtY y h => (l.rowAtY y h).map Prod.snd

def run : List (Operation Key) → DialogsList Key → Option (DialogsList Key)
  | [], l => some l
  | op :: ops, l => (l.step op).bind (run ops)

/-- A key that is added is not there yet, a row that is adjusted is in the list, and asking for
a height behind the rows is allowed where the cursor survives it. -/
def Allowed (l : DialogsList Key) : Operation Key → Prop
  | .addToEnd _ key => l.contains key = false
  | .addByName _ key => l.contains key = false
  | .adjustByPos _ row => ∃ key ∈ l.rows.key row, l.getRow key = some row
  | .rowAtY y h => (l.rowAtY y h).isSome
  | _ => True

instance (l : DialogsList Key) (op : Operation Key) : Decidable (Allowed l op) :=
  match op with
  | .addToEnd _ _ => inferInstanceAs (Decidable (_ = _))
  | .addByName _ _ => inferInstanceAs (Decidable (_ = _))
  | .adjustByPos _ _ => inferInstanceAs (Decidable (∃ _ ∈ _, _))
  | .rowAtY _ _ => inferInstanceAs (Decidable (_ = _))
  | .adjustByName _ _ | .moveToTop _ | .del _ => instDecidableTrue

def AllowedRun : List (Operation Key) → DialogsList Key → Prop
  | [], _ => True
  | op :: ops, l => Allowed l op ∧ ∀ l' ∈ l.step op, AllowedRun ops l'

instance decidableAllowedRun (ops : List (Operation Key)) (l : DialogsList Key) :
    Decidable (AllowedRun ops l) :=
  match ops with
  | [] => instDecidableTrue
  | _ :: ops =>
    have (l' : DialogsList Key) := decidableAllowedRun ops l'
    inferInstanceAs (Decidable (_ ∧ ∀ _ ∈ _, _))

omit [DecidableEq Key] in
theorem init_wellFormed (sortMode : SortMode) :
    WellFormed (init sortMode : DialogsList Key) [] := by
  constructor
  · constructor
    · exact .singleton 0
    · intro x hx
      obtain rfl : 0 = x := by simpa [init] using hx
      rfl
    · intro x hx
      obtain rfl : 0 = x := by simpa [init] using hx
      rfl
  · simp
  · exact ⟨rfl, trivial⟩
  · intro x hx
    by_cases h : x = 0
    · simp [init, h]
    · simp [init, h] at hx
  · intro x hx
    obtain rfl : x = 0 := by simpa [init] using hx
    exact Nat.zero_lt_one
  · rfl
  · rfl
  · simp
  · intro key x hkey
    cases hkey
  · simp [init]

omit [DecidableEq Key] in
theorem WellFormed.rowAtY_moved {y height : Int} {row : Option RowId} (h : WellFormed l ids)
    (hrun : l.rowAtY y height = some (row, l')) : CursorMoved l l' ids := by
  simp only [rowAtY, Option.bind_eq_bind, Option.bind_eq_some_iff] at hrun
  obtain ⟨l₂, hadjust, hrun⟩ := hrun
  have hl₂ : CursorMoved l l₂ ids := by
    rw [adjustCurrent] at hadjust
    split at hadjust
    · obtain rfl := Option.some.inj hadjust
      exact ⟨l.current, h.current, rfl⟩
    · simp only [Option.bind_eq_bind, Option.bind_eq_some_iff] at hadjust
      obtain ⟨pos, -, l₁, hback, hforward⟩ := hadjust
      obtain ⟨z, hz, rfl⟩ := currentBack_moved h hback
      obtain ⟨w, hw, rfl⟩ := currentForward_moved (h.withCurrent hz) hforward
      exact ⟨w, hw, rfl⟩
  have heq : l' = l₂ := by
    split at hrun
    · exact (Prod.mk.inj (Option.some.inj hrun)).2.symm
    · simp only [Option.bind_eq_some_iff] at hrun
      obtain ⟨r, -, pos, -, hrun⟩ := hrun
      exact (Prod.mk.inj (Option.some.inj hrun)).2.symm
  rw [heq]
  exact hl₂

theorem step_wellFormed {op : Operation Key} (h : WellFormed l ids) (hallowed : Allowed l op) :
    ∃ l' ids', l.step op = some l' ∧ WellFormed l' ids' := by
  have hnew {key : Key} (hkey : l.contains key = false) : l.rowByKey key = none := by
    simpa [contains] using hkey
  cases op with
  | addToEnd e key =>
    obtain ⟨l', hrun, hadded⟩ := addToEnd_spec (e := e) h (hnew hallowed)
    obtain ⟨ids', -, hwell⟩ := hadded.wellFormed
    exact ⟨l', ids', by simp [step, hrun], hwell⟩
  | addByName e key =>
    rcases addByName_spec (e := e) h (hnew hallowed) with ⟨hrun, -⟩ | ⟨l', hrun, -, hadded⟩
    · exact ⟨l, ids, by simp [step, hrun], h⟩
    · obtain ⟨ids', -, hwell⟩ := hadded.wellFormed
      exact ⟨l', ids', by simp [step, hrun], hwell⟩
  | adjustByName e key =>
    obtain ⟨row, l', hrun, ⟨-, ids', -, hwell⟩, -⟩ := adjustByName_spec (e := e) key h
    exact ⟨l', ids', by simp [step, hrun], hwell⟩
  | adjustByPos e row =>
    obtain ⟨key, -, hkey⟩ := hallowed
    obtain ⟨l', hrun, -, ids', -, hwell⟩ :=
      adjustByPos_spec (e := e) h (h.rowByKey key row hkey).1
    exact ⟨l', ids', hrun, hwell⟩
  | moveToTop key =>
    obtain ⟨found, l', hrun, -, ids', -, hwell⟩ := moveToTop_spec key h
    exact ⟨l', ids', by simp [step, hrun], hwell⟩
  | del key =>
    cases hrow : l.rowByKey key with
    | none => exact ⟨l, ids, by simp [step, del, hrow], h⟩
    | some row =>
      obtain ⟨A, C, rfl⟩ := List.append_of_mem (h.rowByKey key row hrow).1
      obtain ⟨l', hrun, -, hwell⟩ := del_spec h hrow
      exact ⟨l', A ++ C, by simp [step, hrun], hwell⟩
  | rowAtY y height =>
    obtain ⟨⟨row, l'⟩, hrun⟩ := Option.isSome_iff_exists.mp hallowed
    obtain ⟨z, hz, rfl⟩ := h.rowAtY_moved hrun
    exact ⟨_, ids, by simp [step, hrun], h.withCurrent hz⟩

theorem run_wellFormed_from {ops : List (Operation Key)} (h : WellFormed l ids)
    (hallowed : AllowedRun ops l) : ∃ l' ids', run ops l = some l' ∧ WellFormed l' ids' := by
  induction ops generalizing l ids with
  | nil => exact ⟨l, ids, rfl, h⟩
  | cons op ops ih =>
    obtain ⟨l₁, ids₁, hstep, h₁⟩ := step_wellFormed h hallowed.1
    obtain ⟨l', ids', hrun, hwell⟩ := ih h₁ (hallowed.2 l₁ hstep)
    exact ⟨l', ids', by rw [run, hstep]; exact hrun, hwell⟩

/-- After any sequence of changes the rows are linked, numbered and found, and the row at a
height is the one of its number. -/
theorem run_wellFormed (sortMode : SortMode) {ops : List (Operation Key)}
    (hallowed : AllowedRun ops (init sortMode)) :
    ∃ l ids, run ops (init sortMode) = some l ∧ WellFormed l ids ∧
      ∀ (y height : Int) (k : Nat) (x : RowId), 0 < height → y.tdiv height = k →
        ids[k]? = some x → l.rowAtY y height = some (some x, { l with current := x }) := by
  obtain ⟨l, ids, hrun, hwell⟩ := run_wellFormed_from (init_wellFormed sortMode) hallowed
  refine ⟨l, ids, hrun, hwell, ?_⟩
  intro y height k x hheight hk hx
  apply rowAtY_eq hwell _ hx
  rw [rowNumber]
  by_cases hy : 0 < y
  · rw [if_pos hy, if_neg (by omega), hk]
  · have hneg : 0 ≤ (-y).tdiv height := Int.tdiv_nonneg (by omega) (by omega)
    rw [Int.neg_tdiv] at hneg
    rw [if_neg hy]
    congr 1
    omega

/-- No entry has a name or a date. -/
def sampleEntries : Entries Nat where
  chatListName _ := []
  sortKeyInChatList key := .ofNat key
  compareNames _ _ := 0

theorem run_wellFormed_three :
    ∃ l ids, run [.addToEnd sampleEntries 1, .addToEnd sampleEntries 2, .moveToTop 1,
        .addToEnd sampleEntries 3, .del 2, .rowAtY 15 10] (init .date) = some l ∧
      WellFormed l ids ∧
      ∀ (y height : Int) (k : Nat) (x : RowId), 0 < height → y.tdiv height = k →
        ids[k]? = some x → l.rowAtY y height = some (some x, { l with current := x }) :=
  run_wellFormed .date (by decide)

end TelegramClient.Dialogs.DialogsList
