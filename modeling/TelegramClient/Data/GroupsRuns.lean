import TelegramClient.Data.Groups

/-! The groups after any sequence of calls: their order always holds, their limit as long as a
message that gets its id has room in its group. -/

namespace TelegramClient.Data

namespace Items

variable {Item GroupId : Type} [DecidableEq Item] [DecidableEq GroupId]
variable {m : Items Item GroupId} {item : Item} {g : GroupId} {items : List Item}
variable {groups groups' : Groups Item GroupId} {o : Option (List Item)}

/-! ## The limit -/

def Limited (groups : Groups Item GroupId) : Prop :=
  ∀ g items, groups g = some items → items.length ≤ kMaxItemsInGroup

omit [DecidableEq Item] in
theorem Limited.update (h : Limited groups) (ho : ∀ items ∈ o, items.length ≤ kMaxItemsInGroup) :
    Limited (Function.update groups g o) := by
  intro g' items hitems
  by_cases hg : g' = g
  · subst hg
    rw [Function.update_self] at hitems
    exact ho items hitems
  · rw [Function.update_of_ne hg] at hitems
    exact h g' items hitems

omit [DecidableEq Item] in
theorem Limited.update_iff (h : Limited groups) :
    Limited (Function.update groups g (some items)) ↔ items.length ≤ kMaxItemsInGroup := by
  constructor
  · intro hall
    exact hall g items (Function.update_self g (some items) groups)
  · intro hlength
    apply h.update
    intro items' hitems
    obtain rfl := Option.some.inj hitems
    exact hlength

theorem unregisterMessage_limited (h : Limited groups) :
    Limited (m.unregisterMessage item groups) := by
  rw [unregisterMessage]
  cases m.groupId item with
  | none => exact h
  | some g =>
    dsimp only
    cases hitems : groups g with
    | none => exact h
    | some items =>
      dsimp only
      by_cases hmem : item ∈ items
      · rw [if_pos hmem]
        apply h.update
        intro rest hrest
        have hle := List.length_filter_le (fun a => decide (a ≠ item)) items
        by_cases hempty : items.filter (· ≠ item) = []
        · rw [if_pos hempty] at hrest
          cases hrest
        · rw [if_neg hempty] at hrest
          obtain rfl := Option.some.inj hrest
          exact hle.trans (h g items hitems)
      · rw [if_neg hmem]
        exact h

omit [DecidableEq Item] in
theorem registerMessage_limited (h : Limited groups) :
    Limited (m.registerMessage item groups) := by
  rw [registerMessage]
  by_cases hgrouped : m.isGrouped item = true
  · rw [if_neg (by simp [hgrouped])]
    cases m.groupId item with
    | none => exact h
    | some g =>
      dsimp only
      by_cases hroom : ((groups g).getD []).length < kMaxItemsInGroup
      · rw [if_pos hroom, h.update_iff]
        exact List.length_insertIdx_le_succ.trans hroom
      · rw [if_neg hroom, h.update_iff]
        cases hitems : groups g with
        | none => exact Nat.zero_le _
        | some items => exact h g items hitems
  · rw [if_pos (by simpa using hgrouped)]
    exact h

/-- An item that is put into its group when it gets its id, or when its media changes, has room
there. -/
def HasRoom (m : Items Item GroupId) (item : Item) (justRefreshViews : Bool)
    (groups : Groups Item GroupId) : Prop :=
  m.canBeGrouped item = true → IsServerMsgId (m.id item) = true → justRefreshViews = false →
    ∀ g ∈ m.groupId item, ∀ items ∈ groups g, item ∉ items → items.length < kMaxItemsInGroup

theorem refreshMessage_limited_iff {justRefreshViews : Bool} (hids : Function.Injective m.id)
    (hordered : OrderedBut m item groups) (h : Limited groups)
    (hrun : m.refreshMessage item justRefreshViews groups = some groups') :
    Limited groups' ↔ HasRoom m item justRefreshViews groups := by
  rw [refreshMessage] at hrun
  by_cases hgrouped : m.isGrouped item = true
  · obtain ⟨hisSome, hcan⟩ := Bool.and_eq_true_iff.mp hgrouped
    rw [if_neg (by simp [hgrouped])] at hrun
    by_cases hserver : IsServerMsgId (m.id item) = true
    · obtain ⟨g, hgroup⟩ := Option.isSome_iff_exists.mp hisSome
      rw [if_neg (by simp [hserver]), hgroup] at hrun
      dsimp only at hrun
      cases hg : groups g with
      | none =>
        rw [hg] at hrun
        obtain rfl := Option.some.inj hrun
        refine iff_of_true (registerMessage_limited h) ?_
        intro _ _ _ g' hg' items hitems
        obtain rfl : g = g' := by simpa [hgroup] using hg'
        rw [hg] at hitems
        cases hitems
      | some items =>
        rw [hg] at hrun
        dsimp only at hrun
        by_cases hjust : justRefreshViews = true
        · rw [if_pos hjust] at hrun
          obtain rfl := Option.some.inj hrun
          refine iff_of_true h ?_
          intro _ _ hnot
          rw [hjust] at hnot
          cases hnot
        · obtain ⟨items', hposition, -, hlength⟩ :=
            refreshPosition_inOrder hids hserver hgroup (hordered g items hg)
          rw [if_neg hjust, hposition] at hrun
          obtain rfl := Option.some.inj hrun
          rw [h.update_iff, hlength]
          by_cases hmem : item ∈ items
          · rw [if_pos hmem]
            refine iff_of_true (h g items hg) ?_
            intro _ _ _ g' hg' items' hitems' hnotMem
            obtain rfl : g = g' := by simpa [hgroup] using hg'
            obtain rfl : items = items' := by simpa [hg] using hitems'
            exact absurd hmem hnotMem
          · rw [if_neg hmem]
            constructor
            · intro hle _ _ _ g' hg' items' hitems' _
              obtain rfl : g = g' := by simpa [hgroup] using hg'
              obtain rfl : items = items' := by simpa [hg] using hitems'
              exact hle
            · intro hroom
              exact hroom hcan hserver (by simpa using hjust) g hgroup items hg hmem
    · rw [if_pos (by simpa using hserver)] at hrun
      obtain rfl := Option.some.inj hrun
      exact iff_of_true h fun _ hyes => absurd hyes hserver
  · rw [if_pos (by simpa using hgrouped)] at hrun
    obtain rfl := Option.some.inj hrun
    refine iff_of_true (unregisterMessage_limited h) ?_
    intro hcan _ _ g hg
    exact absurd (by simp [isGrouped, Option.mem_def.mp hg, hcan]) hgrouped

/-! ## Runs -/

/-- A message is registered or forgotten, gets its id from the server, or changes its media. -/
inductive Operation (Item : Type) where
  | registerMessage (item : Item)
  | unregisterMessage (item : Item)
  | setRealId (item : Item) (newId : MsgId)
  | refreshMedia (item : Item) (canBeGrouped justRefreshViews : Bool)

def setId (m : Items Item GroupId) (item : Item) (newId : MsgId) : Items Item GroupId :=
  { m with id := Function.update m.id item newId }

def setMedia (m : Items Item GroupId) (item : Item) (canBeGrouped : Bool) : Items Item GroupId :=
  { m with canBeGrouped := Function.update m.canBeGrouped item canBeGrouped }

/-- The items and their groups. -/
abbrev State (Item GroupId : Type) := Items Item GroupId × Groups Item GroupId

def step (s : State Item GroupId) : Operation Item → Option (State Item GroupId)
  | .registerMessage item => some (s.1, s.1.registerMessage item s.2)
  | .unregisterMessage item => some (s.1, s.1.unregisterMessage item s.2)
  | .setRealId item newId =>
    ((s.1.setId item newId).refreshMessage item false s.2).map fun groups =>
      (s.1.setId item newId, groups)
  | .refreshMedia item canBeGrouped justRefreshViews =>
    if s.1.isGrouped item then
      ((s.1.setMedia item canBeGrouped).refreshMessage item justRefreshViews s.2).map
        fun groups => (s.1.setMedia item canBeGrouped, groups)
    else some (s.1.setMedia item canBeGrouped, s.2)

def run : List (Operation Item) → State Item GroupId → Option (State Item GroupId)
  | [], s => some s
  | op :: ops, s => (step s op).bind (run ops)

/-- A message is registered once, and gets its id once, which no other message has. -/
def Allowed (s : State Item GroupId) : Operation Item → Prop
  | .registerMessage item => ¬ Listed s.1 item s.2
  | .unregisterMessage _ => True
  | .setRealId item newId => IsServerMsgId (s.1.id item) = false ∧ IsServerMsgId newId = true ∧
      ∀ other, s.1.id other ≠ newId
  | .refreshMedia _ _ _ => True

def AllowedRun : List (Operation Item) → State Item GroupId → Prop
  | [], _ => True
  | op :: ops, s => Allowed s op ∧ ∀ s' ∈ step s op, AllowedRun ops s'

def StepHasRoom (s : State Item GroupId) : Operation Item → Prop
  | .setRealId item newId => HasRoom (s.1.setId item newId) item false s.2
  | .refreshMedia item canBeGrouped justRefreshViews => s.1.isGrouped item = true →
      HasRoom (s.1.setMedia item canBeGrouped) item justRefreshViews s.2
  | _ => True

def RunHasRoom : List (Operation Item) → State Item GroupId → Prop
  | [], _ => True
  | op :: ops, s => StepHasRoom s op ∧ ∀ s' ∈ step s op, RunHasRoom ops s'

/-- The groups are within their limit after every step. -/
def LimitedRun : List (Operation Item) → State Item GroupId → Prop
  | [], s => Limited s.2
  | op :: ops, s => Limited s.2 ∧ ∀ s' ∈ step s op, LimitedRun ops s'

variable {s s' : State Item GroupId} {op : Operation Item} {ops : List (Operation Item)}

omit [DecidableEq GroupId] in
theorem setId_injective {newId : MsgId} (hids : Function.Injective m.id)
    (hnew : ∀ other, m.id other ≠ newId) : Function.Injective (m.setId item newId).id := by
  intro a b hab
  by_cases ha : a = item <;> by_cases hb : b = item
  · rw [ha, hb]
  · simp only [setId, ha, Function.update_self, Function.update_of_ne hb] at hab
    exact absurd hab.symm (hnew b)
  · simp only [setId, hb, Function.update_self, Function.update_of_ne ha] at hab
    exact absurd hab (hnew a)
  · simp only [setId, Function.update_of_ne ha, Function.update_of_ne hb] at hab
    exact hids hab

omit [DecidableEq GroupId] in
theorem Ordered.setId {newId : MsgId} (h : Ordered m groups) :
    OrderedBut (m.setId item newId) item groups := by
  intro g items hg
  obtain ⟨hnonempty, hnodup, hbelong, hsorted⟩ := h g items hg
  refine ⟨hnonempty, hnodup, hbelong, (hsorted.filter _).imp_of_mem ?_⟩
  intro a b ha hb hab
  have hne : ∀ c ∈ items.filter (· ≠ item), c ≠ item := by
    intro c hc
    simpa using (List.mem_filter.mp hc).2
  simp only [Before, Items.setId, Function.update_of_ne (hne a ha),
    Function.update_of_ne (hne b hb)]
  exact hab

omit [DecidableEq GroupId] in
theorem Ordered.setMedia {canBeGrouped : Bool} (h : Ordered m groups) :
    Ordered (m.setMedia item canBeGrouped) groups := by
  intro g items hg
  obtain ⟨hnonempty, hnodup, hbelong, hsorted⟩ := h g items hg
  exact ⟨hnonempty, hnodup, hbelong, hsorted⟩

theorem step_ordered (hids : Function.Injective s.1.id) (h : Ordered s.1 s.2)
    (hallowed : Allowed s op) :
    ∃ s', step s op = some s' ∧ Function.Injective s'.1.id ∧ Ordered s'.1 s'.2 := by
  cases op with
  | registerMessage item => exact ⟨_, rfl, hids, registerMessage_ordered hids h hallowed⟩
  | unregisterMessage item => exact ⟨_, rfl, hids, unregisterMessage_ordered (h.but item)⟩
  | setRealId item newId =>
    have hids' : Function.Injective (s.1.setId item newId).id :=
      setId_injective hids hallowed.2.2
    obtain ⟨groups', hrun, hordered⟩ :=
      refreshMessage_ordered hids' h.setId fun hfalse => absurd hfalse Bool.false_ne_true
    exact ⟨(_, groups'), by rw [step, hrun]; rfl, hids', hordered⟩
  | refreshMedia item canBeGrouped justRefreshViews =>
    have hids' : Function.Injective (s.1.setMedia item canBeGrouped).id := hids
    have hmedia : Ordered (s.1.setMedia item canBeGrouped) s.2 := h.setMedia
    by_cases hgrouped : s.1.isGrouped item = true
    · obtain ⟨groups', hrun, hordered⟩ :=
        refreshMessage_ordered hids' (hmedia.but item) fun _ => hmedia
      exact ⟨(_, groups'), by rw [step, if_pos hgrouped, hrun]; rfl, hids', hordered⟩
    · exact ⟨(_, s.2), by rw [step, if_neg hgrouped]; rfl, hids', hmedia⟩

theorem step_limited_iff (hids : Function.Injective s.1.id) (h : Ordered s.1 s.2)
    (hallowed : Allowed s op) (hlimited : Limited s.2) (hstep : step s op = some s') :
    Limited s'.2 ↔ StepHasRoom s op := by
  cases op with
  | registerMessage item =>
    obtain rfl := Option.some.inj hstep
    exact iff_of_true (registerMessage_limited hlimited) trivial
  | unregisterMessage item =>
    obtain rfl := Option.some.inj hstep
    exact iff_of_true (unregisterMessage_limited hlimited) trivial
  | setRealId item newId =>
    obtain ⟨groups', hrun, rfl⟩ := Option.map_eq_some_iff.mp hstep
    exact refreshMessage_limited_iff (setId_injective hids hallowed.2.2) h.setId hlimited hrun
  | refreshMedia item canBeGrouped justRefreshViews =>
    by_cases hgrouped : s.1.isGrouped item = true
    · rw [step, if_pos hgrouped] at hstep
      obtain ⟨groups', hrun, rfl⟩ := Option.map_eq_some_iff.mp hstep
      have hids' : Function.Injective (s.1.setMedia item canBeGrouped).id := hids
      have hmedia : Ordered (s.1.setMedia item canBeGrouped) s.2 := h.setMedia
      rw [StepHasRoom, refreshMessage_limited_iff hids' (hmedia.but item) hlimited hrun]
      simp [hgrouped]
    · rw [step, if_neg hgrouped] at hstep
      obtain rfl := Option.some.inj hstep
      exact iff_of_true hlimited fun hyes => absurd hyes hgrouped

theorem run_ordered_from (hids : Function.Injective s.1.id) (h : Ordered s.1 s.2)
    (hallowed : AllowedRun ops s) : ∃ s', run ops s = some s' ∧ Ordered s'.1 s'.2 := by
  induction ops generalizing s with
  | nil => exact ⟨s, rfl, h⟩
  | cons op ops ih =>
    obtain ⟨s₁, hstep, hids₁, h₁⟩ := step_ordered hids h hallowed.1
    obtain ⟨s', hrun, h'⟩ := ih hids₁ h₁ (hallowed.2 s₁ hstep)
    exact ⟨s', by rw [run, hstep]; exact hrun, h'⟩

theorem run_limited_iff (hids : Function.Injective s.1.id) (h : Ordered s.1 s.2)
    (hallowed : AllowedRun ops s) (hlimited : Limited s.2) :
    LimitedRun ops s ↔ RunHasRoom ops s := by
  induction ops generalizing s with
  | nil => exact iff_of_true hlimited trivial
  | cons op ops ih =>
    obtain ⟨s₁, hstep, hids₁, h₁⟩ := step_ordered hids h hallowed.1
    have hiff := step_limited_iff hids h hallowed.1 hlimited hstep
    simp only [LimitedRun, RunHasRoom, hlimited, true_and, hstep, Option.mem_some_iff,
      forall_eq']
    constructor
    · intro hall
      have hlimited₁ : Limited s₁.2 := by
        cases ops with
        | nil => exact hall
        | cons => exact hall.1
      exact ⟨hiff.mp hlimited₁, (ih hids₁ h₁ (hallowed.2 s₁ hstep) hlimited₁).mp hall⟩
    · rintro ⟨hroom, hall⟩
      have hlimited₁ := hiff.mpr hroom
      exact (ih hids₁ h₁ (hallowed.2 s₁ hstep) hlimited₁).mpr hall

/-- No item is listed twice, items with ids from the server are in order and no empty group is
kept, whatever the calls. The limit holds in every state exactly if messages that get their ids
have room. -/
theorem run_ordered (hids : Function.Injective m.id) (hallowed : AllowedRun ops (m, fun _ => none)) :
    (∃ s, run ops (m, fun _ => none) = some s ∧ Ordered s.1 s.2) ∧
      (LimitedRun ops (m, fun _ => none) ↔ RunHasRoom ops (m, fun _ => none)) := by
  have hordered : Ordered m (fun _ => none) := by
    intro g items hg
    cases hg
  have hlimited : Limited (fun _ => none : Groups Item GroupId) := by
    intro g items hg
    cases hg
  exact ⟨run_ordered_from hids hordered hallowed, run_limited_iff hids hordered hallowed hlimited⟩

instance [Fintype Item] (s : State Item GroupId) (op : Operation Item) : Decidable (Allowed s op) :=
  match op with
  | .registerMessage item => inferInstanceAs (Decidable (¬ ∃ g ∈ s.1.groupId item,
      ∃ items ∈ s.2 g, item ∈ items))
  | .setRealId item newId => inferInstanceAs (Decidable (IsServerMsgId (s.1.id item) = false ∧
      IsServerMsgId newId = true ∧ ∀ other, s.1.id other ≠ newId))
  | .unregisterMessage _ | .refreshMedia _ _ _ => instDecidableTrue

instance decidableAllowedRun [Fintype Item] :
    (ops : List (Operation Item)) → (s : State Item GroupId) → Decidable (AllowedRun ops s)
  | [], _ => instDecidableTrue
  | op :: ops, s =>
    have (s' : State Item GroupId) := decidableAllowedRun ops s'
    inferInstanceAs (Decidable (Allowed s op ∧ ∀ s' ∈ step s op, AllowedRun ops s'))

/-- Messages of one group that were not sent yet. -/
def album : Items (Fin 12) Unit where
  id item := -1 - (item : Nat)
  groupId _ := some ()
  canBeGrouped _ := true

theorem album_injective : Function.Injective album.id := by
  decide

theorem run_ordered_album :
    (∃ s, run [.registerMessage 0, .registerMessage 1, .setRealId 1 7, .setRealId 0 5,
        .unregisterMessage 1] (album, fun _ => none) = some s ∧ Ordered s.1 s.2) ∧
      (LimitedRun [.registerMessage 0, .registerMessage 1, .setRealId 1 7, .setRealId 0 5,
        .unregisterMessage 1] (album, fun _ => none) ↔
      RunHasRoom [.registerMessage 0, .registerMessage 1, .setRealId 1 7, .setRealId 0 5,
        .unregisterMessage 1] (album, fun _ => none)) :=
  run_ordered album_injective (by decide)

/-- Eleven messages are registered, and the last one gets its id. -/
def albumOfEleven : List (Operation (Fin 12)) :=
  ([0, 1, 2, 3, 4, 5, 6, 7, 8, 9, 10].map .registerMessage) ++ [.setRealId 10 5]

/-- The last one had no room, and is put in nevertheless. -/
theorem albumOfEleven_exceeds :
    Function.Injective album.id ∧ AllowedRun albumOfEleven (album, fun _ => none) ∧
      ∃ s items, run albumOfEleven (album, fun _ => none) = some s ∧ s.2 () = some items ∧
        kMaxItemsInGroup < items.length := by
  have hlength : ((run albumOfEleven (album, fun _ => none)).bind fun s => s.2 ()).map
      List.length = some 11 := by
    decide
  obtain ⟨items, hitems, heleven⟩ := Option.map_eq_some_iff.mp hlength
  obtain ⟨s, hrun, hgroup⟩ := Option.bind_eq_some_iff.mp hitems
  refine ⟨album_injective, by decide, s, items, hrun, hgroup, ?_⟩
  rw [heleven]
  decide

end Items

end TelegramClient.Data
