import TelegramClient.Export.DialogsList

/-! Each chat is listed once, with a split for each time that it was reported. -/

namespace TelegramClient.Export

open Std

variable {InputPeer : Type} {α β : Type*}

/-! ### Lists with an element changed -/

theorem map_modify {f : α → α} {g : α → β} (hg : ∀ a, g (f a) = g a) (l : List α) (i : Nat) :
    (l.modify i f).map g = l.map g := by
  apply List.ext_getElem?
  intro j
  rw [List.getElem?_map, List.getElem?_map, List.getElem?_modify]
  cases l[j]? with
  | none => rfl
  | some a =>
    by_cases hij : i = j
    · simp [hij, hg]
    · simp [hij]

theorem modify_length (f : α → α) (l : List α) (a : α) :
    (l ++ [a]).modify l.length f = l ++ [f a] := by
  induction l with
  | nil => rfl
  | cons b l ih => rw [List.cons_append, List.length_cons, List.modify_succ_cons, ih, List.cons_append]

theorem exists_of_mem_modify {f : α → α} {l : List α} {i : Nat} {a : α} (h : a ∈ l.modify i f) :
    ∃ j b, l[j]? = some b ∧ a = if i = j then f b else b := by
  obtain ⟨j, hj⟩ := List.mem_iff_getElem?.mp h
  rw [List.getElem?_modify] at hj
  cases hb : l[j]? with
  | none =>
    rw [hb] at hj
    cases hj
  | some b =>
    rw [hb, Option.map_eq_map, Option.map_some, Option.some.injEq] at hj
    refine ⟨j, b, hb, ?_⟩
    rw [← hj]

/-- Pairs are distinct if and only if those with the same first part differ in the second one. -/
theorem nodup_pairs_iff [DecidableEq β] {γ : Type*} (key : α → β) (value : α → γ) (l : List α) :
    (l.map fun a => (key a, value a)).Nodup ↔
      ∀ k, ((l.filter fun a => key a = k).map value).Nodup := by
  induction l with
  | nil => simp
  | cons a l ih =>
    rw [List.map_cons, List.nodup_cons, ih]
    constructor
    · intro ⟨hnew, hrest⟩ k
      by_cases hk : key a = k
      · rw [List.filter_cons_of_pos (by simpa using hk), List.map_cons, List.nodup_cons]
        refine ⟨?_, hrest k⟩
        intro hmem
        obtain ⟨b, hb, hvalue⟩ := List.mem_map.mp hmem
        have hkey := (List.mem_filter.mp hb).2
        apply hnew
        rw [List.mem_map]
        refine ⟨b, List.mem_of_mem_filter hb, ?_⟩
        rw [of_decide_eq_true hkey, hvalue, hk]
      · rw [List.filter_cons_of_neg (by simpa using hk)]
        exact hrest k
    · intro h
      have hsame := h (key a)
      rw [List.filter_cons_of_pos (by simp), List.map_cons, List.nodup_cons] at hsame
      constructor
      · intro hmem
        obtain ⟨b, hb, heq⟩ := List.mem_map.mp hmem
        obtain ⟨hkey, hvalue⟩ := Prod.mk.inj heq
        apply hsame.1
        rw [← hvalue]
        exact List.mem_map_of_mem (List.mem_filter.mpr ⟨hb, by simpa using hkey⟩)
      · intro k
        have hk := h k
        by_cases hkey : key a = k
        · rw [← hkey]
          exact hsame.2
        · rw [List.filter_cons_of_neg (by simpa using hkey)] at hk
          exact hk

/-! ### What the lists are for -/

/-- The reports of chats that are exported. -/
def chosenReports (types : Types) (reports : List (Nat × Dialog InputPeer)) :
    List (Nat × Dialog InputPeer) :=
  reports.filter fun report => isChosen types report.2

/-- The chats of the list. -/
def ChatsProcess.peers (process : ChatsProcess InputPeer) : List PeerId :=
  process.list.map fun info => info.peerId

/-- A list of chats as the exporter needs it. -/
structure Listed (types : Types) (reports : List (Nat × Dialog InputPeer))
    (process : ChatsProcess InputPeer) : Prop where
  once : process.peers.Nodup
  mem_iff : ∀ peer, peer ∈ process.peers ↔ ∃ report ∈ chosenReports types reports, report.2.peerId = peer
  index_iff : ∀ (peer : PeerId) (i : Nat), process.indexByPeer[peer]? = some i ↔ process.peers[i]? = some peer
  nodup_splits : ∀ info ∈ process.list, info.splits.Nodup
  mem_splits_iff : ∀ info ∈ process.list, ∀ split, split ∈ info.splits ↔
    ∃ report ∈ chosenReports types reports, report.2.peerId = info.peerId ∧ report.1 = split
  length_counts : ∀ info ∈ process.list, info.messagesCountPerSplit.length = info.splits.length

/-- No chat is reported twice in one split. -/
def NoRepeats (types : Types) (reports : List (Nat × Dialog InputPeer)) : Prop :=
  ((chosenReports types reports).map fun report => (report.2.peerId, report.1)).Nodup

/-! ### What the code keeps -/

def splitsOf (reports : List (Nat × Dialog InputPeer)) (peer : PeerId) : List Nat :=
  (reports.filter fun report => report.2.peerId = peer).map Prod.fst

/-- The reports of each chat are merged, in their order. -/
structure Merged (reports : List (Nat × Dialog InputPeer)) (process : ChatsProcess InputPeer) :
    Prop where
  once : process.peers.Nodup
  mem_iff : ∀ peer, peer ∈ process.peers ↔ ∃ report ∈ reports, report.2.peerId = peer
  index_iff : ∀ (peer : PeerId) (i : Nat), process.indexByPeer[peer]? = some i ↔ process.peers[i]? = some peer
  splits_eq : ∀ info ∈ process.list, info.splits = splitsOf reports info.peerId
  length_counts : ∀ info ∈ process.list, info.messagesCountPerSplit.length = info.splits.length

variable {types : Types} {reports : List (Nat × Dialog InputPeer)} {process : ChatsProcess InputPeer}
  {dialog : Dialog InputPeer} {peer : PeerId} {splitIndex i : Nat}

theorem splitsOf_append_of_eq (h : dialog.peerId = peer) :
    splitsOf (reports ++ [(splitIndex, dialog)]) peer = splitsOf reports peer ++ [splitIndex] := by
  simp [splitsOf, h]

theorem splitsOf_append_of_ne (h : dialog.peerId ≠ peer) :
    splitsOf (reports ++ [(splitIndex, dialog)]) peer = splitsOf reports peer := by
  simp [splitsOf, h]

theorem splitsOf_eq_nil (h : ¬ ∃ report ∈ reports, report.2.peerId = peer) :
    splitsOf reports peer = [] := by
  rw [splitsOf, List.map_eq_nil_iff, List.filter_eq_nil_iff]
  intro report hreport hpeer
  exact h ⟨report, hreport, of_decide_eq_true hpeer⟩

theorem Merged.modify (h : Merged reports process)
    (hi : process.indexByPeer[dialog.peerId]? = some i) :
    Merged (reports ++ [(splitIndex, dialog)])
      { process with list := process.list.modify i (DialogInfo.addSplit splitIndex) } := by
  have hpeers : ({ process with list := process.list.modify i (DialogInfo.addSplit splitIndex) } :
      ChatsProcess InputPeer).peers = process.peers :=
    map_modify (f := DialogInfo.addSplit splitIndex)
      (g := fun info : DialogInfo InputPeer => info.peerId) (fun _ => rfl) _ _
  have hknown := (h.index_iff _ _).mp hi
  constructor
  · rw [hpeers]
    exact h.once
  · intro peer
    rw [hpeers, h.mem_iff]
    simp only [List.mem_append, List.mem_singleton]
    constructor
    · intro ⟨report, hreport, hpeer⟩
      exact ⟨report, .inl hreport, hpeer⟩
    · intro ⟨report, hreport, hpeer⟩
      cases hreport with
      | inl hold => exact ⟨report, hold, hpeer⟩
      | inr hnew =>
        rw [← h.mem_iff, ← hpeer, hnew]
        exact List.mem_of_getElem? hknown
  · intro peer j
    rw [hpeers]
    exact h.index_iff peer j
  · intro info hinfo
    obtain ⟨j, old, hold, rfl⟩ := exists_of_mem_modify hinfo
    have hsplits := h.splits_eq old (List.mem_of_getElem? hold)
    by_cases hij : i = j
    · rw [if_pos hij]
      rw [hij, ChatsProcess.peers, List.getElem?_map, hold, Option.map_some,
        Option.some.injEq] at hknown
      show old.splits ++ [splitIndex] = splitsOf _ old.peerId
      rw [splitsOf_append_of_eq hknown.symm, hsplits]
    · rw [if_neg hij]
      have hother : dialog.peerId ≠ old.peerId := by
        intro heq
        have hj := (h.index_iff old.peerId j).mpr (by simp [ChatsProcess.peers, hold])
        rw [← heq, hi, Option.some.injEq] at hj
        exact hij hj
      rw [splitsOf_append_of_ne hother, hsplits]
  · intro info hinfo
    obtain ⟨j, old, hold, rfl⟩ := exists_of_mem_modify hinfo
    have hcounts := h.length_counts old (List.mem_of_getElem? hold)
    split
    · show (old.messagesCountPerSplit ++ [0]).length = (old.splits ++ [splitIndex]).length
      simp [hcounts]
    · exact hcounts

theorem Merged.append (h : Merged reports process)
    (hi : process.indexByPeer[dialog.peerId]? = none) :
    Merged (reports ++ [(splitIndex, dialog)])
      { process with
        list := process.list ++
          [DialogInfo.addSplit splitIndex ({ toDialog := dialog } : DialogInfo InputPeer)]
        indexByPeer := process.indexByPeer.insert dialog.peerId process.list.length } := by
  have hnew : dialog.peerId ∉ process.peers := by
    intro hmem
    obtain ⟨j, hj⟩ := List.mem_iff_getElem?.mp hmem
    rw [← h.index_iff, hi] at hj
    cases hj
  have hpeers : ({ process with
      list := process.list ++
        [DialogInfo.addSplit splitIndex ({ toDialog := dialog } : DialogInfo InputPeer)]
      indexByPeer := process.indexByPeer.insert dialog.peerId process.list.length } :
      ChatsProcess InputPeer).peers = process.peers ++ [dialog.peerId] := List.map_append
  have hlength : process.peers.length = process.list.length := List.length_map _
  constructor
  · rw [hpeers, List.nodup_append]
    refine ⟨h.once, List.nodup_singleton _, ?_⟩
    intro peer hpeer peer' hpeer' heq
    rw [List.mem_singleton] at hpeer'
    rw [heq, hpeer'] at hpeer
    exact hnew hpeer
  · intro peer
    rw [hpeers, List.mem_append, h.mem_iff, List.mem_singleton]
    simp only [List.mem_append, List.mem_singleton, or_and_right, exists_or, exists_eq_left]
    exact or_congr Iff.rfl eq_comm
  · intro peer j
    rw [hpeers, List.getElem?_append]
    show (process.indexByPeer.insert _ _)[peer]? = _ ↔ _
    rw [ExtTreeMap.getElem?_insert, hlength]
    by_cases hpeer : dialog.peerId = peer
    · rw [if_pos (Std.compare_eq_iff_eq.mpr hpeer), Option.some.injEq]
      constructor
      · intro hj
        rw [if_neg (by omega), ← hj, Nat.sub_self, ← hpeer]
        rfl
      · intro hj
        by_cases hlt : j < process.list.length
        · rw [if_pos hlt, ← h.index_iff, ← hpeer, hi] at hj
          cases hj
        · rw [if_neg hlt, List.getElem?_singleton] at hj
          split at hj
          · omega
          · cases hj
    · rw [if_neg (fun heq => hpeer (Std.compare_eq_iff_eq.mp heq)), h.index_iff]
      by_cases hlt : j < process.list.length
      · rw [if_pos hlt]
      · rw [if_neg hlt, List.getElem?_eq_none (by omega), List.getElem?_singleton]
        constructor
        · intro hj
          cases hj
        · intro hj
          split at hj
          · exact absurd (Option.some.inj hj) hpeer
          · cases hj
  · intro info hinfo
    rw [List.mem_append, List.mem_singleton] at hinfo
    cases hinfo with
    | inl hold =>
      have hother : dialog.peerId ≠ info.peerId := by
        intro heq
        rw [heq] at hnew
        exact hnew (List.mem_map_of_mem hold)
      rw [splitsOf_append_of_ne hother, h.splits_eq info hold]
    | inr hadded =>
      rw [hadded]
      show [] ++ [splitIndex] = splitsOf _ dialog.peerId
      rw [splitsOf_append_of_eq rfl, splitsOf_eq_nil]
      rw [← h.mem_iff]
      exact hnew
  · intro info hinfo
    rw [List.mem_append, List.mem_singleton] at hinfo
    cases hinfo with
    | inl hold => exact h.length_counts info hold
    | inr hadded =>
      rw [hadded]
      rfl

theorem Merged.appendChat (h : Merged reports process) :
    Merged (reports ++ [(splitIndex, dialog)]) (appendChat splitIndex process dialog) := by
  unfold Export.appendChat
  cases hi : process.indexByPeer[dialog.peerId]? with
  | some i => exact h.modify hi
  | none =>
    have happend : Merged (reports ++ [(splitIndex, dialog)]) _ := h.append hi
    rw [← modify_length] at happend
    exact happend

theorem Merged.appendChatsSlice (h : Merged (chosenReports types reports) process)
    (slice : List (Dialog InputPeer)) :
    Merged (chosenReports types (reports ++ report splitIndex slice))
      (appendChatsSlice types process slice splitIndex) := by
  have hfold : ∀ (chats : List (Dialog InputPeer)) (reports : List (Nat × Dialog InputPeer))
      (process : ChatsProcess InputPeer), Merged reports process →
      Merged (reports ++ report splitIndex chats)
        (chats.foldl (Export.appendChat splitIndex) process) := by
    intro chats
    induction chats with
    | nil =>
      intro reports process h
      simpa [report] using h
    | cons dialog chats ih =>
      intro reports process h
      have happend : Merged (reports ++ [(splitIndex, dialog)]) _ := h.appendChat
      have hnext := ih _ _ happend
      rw [List.append_assoc] at hnext
      exact hnext
  have hchosen : chosenReports types (report splitIndex slice) =
      report splitIndex (slice.filter (isChosen types)) := by
    rw [chosenReports, report, report, List.filter_map]
    rfl
  rw [chosenReports, List.filter_append]
  show Merged (chosenReports types reports ++ chosenReports types (report splitIndex slice)) _
  rw [hchosen]
  exact hfold _ _ _ h

theorem merged_nil : Merged ([] : List (Nat × Dialog InputPeer)) {} := by
  constructor
  · exact List.nodup_nil
  · simp [ChatsProcess.peers]
  · simp [ChatsProcess.peers]
  · simp
  · simp

theorem Merged.repeats_iff (h : Merged (chosenReports types reports) process) :
    Listed types reports process ↔ NoRepeats types reports := by
  rw [NoRepeats, nodup_pairs_iff (fun report : Nat × Dialog InputPeer => report.2.peerId) Prod.fst]
  constructor
  · intro hlisted peer
    by_cases hpeer : ∃ report ∈ chosenReports types reports, report.2.peerId = peer
    · rw [← h.mem_iff] at hpeer
      obtain ⟨info, hinfo, rfl⟩ := List.mem_map.mp hpeer
      have hnodup := hlisted.nodup_splits info hinfo
      rw [h.splits_eq info hinfo] at hnodup
      exact hnodup
    · have hnil := splitsOf_eq_nil hpeer
      rw [splitsOf] at hnil
      rw [hnil]
      exact List.nodup_nil
  · intro hnodup
    refine ⟨h.once, h.mem_iff, h.index_iff, ?_, ?_, h.length_counts⟩
    · intro info hinfo
      rw [h.splits_eq info hinfo]
      exact hnodup info.peerId
    · intro info hinfo split
      rw [h.splits_eq info hinfo, splitsOf]
      simp [and_assoc]

/-! ### Runs -/

/-- Both lists hold what was reported. -/
structure ApiWrap.IsMerged (s : ApiWrap InputPeer) : Prop where
  dialogs : Merged (chosenReports s.types s.dialogsReported) s.dialogs
  left : Merged (chosenReports s.types s.leftReported) s.left

variable {s s' : ApiWrap InputPeer} {answer : Answer InputPeer} {answers : List (Answer InputPeer)}

theorem Merged.count (h : Merged reports process) (processedCount : Nat) :
    Merged reports { process with processedCount := processedCount } :=
  ⟨h.once, h.mem_iff, h.index_iff, h.splits_eq, h.length_counts⟩

theorem ApiWrap.IsMerged.nextDialogsSlice (h : s.IsMerged) (finished : Bool)
    (last : Option (Dialog InputPeer)) : (s.nextDialogsSlice finished last).IsMerged := by
  unfold ApiWrap.nextDialogsSlice
  split
  · exact ⟨h.dialogs, h.left⟩
  · dsimp only
    split_ifs
    all_goals exact ⟨h.dialogs, h.left⟩

theorem ApiWrap.IsMerged.dialogsSliceDone (h : s.IsMerged) (finished : Bool)
    (slice : List (Dialog InputPeer)) (proceed : Bool) :
    (s.dialogsSliceDone finished slice proceed).IsMerged := by
  have happended : (({ s with
      dialogs := { s.dialogs with processedCount := s.dialogs.processedCount + slice.length } } :
      ApiWrap InputPeer).appendDialogsSlice slice).IsMerged :=
    ⟨(h.dialogs.count _).appendChatsSlice slice, h.left⟩
  rw [ApiWrap.dialogsSliceDone]
  split
  · exact happended.nextDialogsSlice _ _
  · exact ⟨happended.dialogs, happended.left⟩

theorem ApiWrap.IsMerged.leftChannelsSliceDone (h : s.IsMerged) (answer : ChatsAnswer InputPeer) :
    (s.leftChannelsSliceDone answer).IsMerged :=
  ⟨h.dialogs, h.left.appendChatsSlice answer.list⟩

theorem ApiWrap.IsMerged.receive (h : s.IsMerged) (hreceive : s.receive answer = some s') :
    s'.IsMerged := by
  cases answer with
  | dialogs answer proceed =>
    simp only [ApiWrap.receive, Option.ite_none_right_eq_some] at hreceive
    obtain ⟨-, hreceive⟩ := hreceive
    cases answer with
    | dialogs chats =>
      rw [← Option.some.inj hreceive]
      exact h.dialogsSliceDone _ _ _
    | dialogsSlice chats folders =>
      rw [← Option.some.inj hreceive]
      exact h.dialogsSliceDone _ _ _
    | dialogsNotModified =>
      rw [← Option.some.inj hreceive]
      exact ⟨h.dialogs, h.left⟩
  | leftChannels answer proceed =>
    have hreceived := h.leftChannelsSliceDone answer
    simp only [ApiWrap.receive] at hreceive
    split_ifs at hreceive
    all_goals
      rw [← Option.some.inj hreceive]
      exact ⟨hreceived.dialogs, hreceived.left⟩

theorem ApiWrap.IsMerged.run (h : s.IsMerged) (hrun : s.run answers = some s') : s'.IsMerged := by
  induction answers generalizing s with
  | nil =>
    rw [← Option.some.inj hrun]
    exact h
  | cons answer answers ih =>
    rw [ApiWrap.run, List.foldlM_cons, Option.bind_eq_bind, Option.bind_eq_some_iff] at hrun
    obtain ⟨next, hreceive, hrest⟩ := hrun
    exact ih (h.receive hreceive) hrest

/-- After any run the chats are listed once, with each of their splits once, if and only if none
is reported twice in one split. -/
theorem listed_iff {lastSplit : Nat}
    (hrun : (ApiWrap.start InputPeer types lastSplit).run answers = some s) :
    (Listed s.types s.dialogsReported s.dialogs ∧ Listed s.types s.leftReported s.left) ↔
      NoRepeats s.types s.dialogsReported ∧ NoRepeats s.types s.leftReported := by
  have hstart : (ApiWrap.start InputPeer types lastSplit).IsMerged := ⟨merged_nil, merged_nil⟩
  have hmerged := hstart.run hrun
  rw [hmerged.dialogs.repeats_iff, hmerged.left.repeats_iff]

/-- A chat with a person, whose last message has a date. -/
def personalChat : Dialog Unit := { type := .personal, input := (), topMessageDate := 1, peerId := 7 }

/-- The chat is reported in both splits. -/
theorem listed_twoSplits : ∃ s : ApiWrap Unit,
    (ApiWrap.start Unit Types.personalChats 1).run
      [.dialogs (.dialogs [personalChat]) true, .dialogs (.dialogs [personalChat]) true] = some s ∧
    Listed s.types s.dialogsReported s.dialogs ∧ Listed s.types s.leftReported s.left := by
  obtain ⟨s, hrun, hdialogs, hleft⟩ : ∃ s : ApiWrap Unit,
      (ApiWrap.start Unit Types.personalChats 1).run
        [.dialogs (.dialogs [personalChat]) true, .dialogs (.dialogs [personalChat]) true] = some s ∧
      NoRepeats s.types s.dialogsReported ∧ NoRepeats s.types s.leftReported := by
    refine ⟨_, rfl, ?_, List.nodup_nil⟩
    show List.Nodup [((7 : PeerId), 1), (7, 0)]
    decide
  exact ⟨s, hrun, (listed_iff hrun).mpr ⟨hdialogs, hleft⟩⟩

/-- The chat moves to the next slice of the same split. -/
theorem listed_twice : ¬ ∀ (answers : List (Answer Unit)) (s : ApiWrap Unit),
    (ApiWrap.start Unit Types.personalChats 0).run answers = some s →
      Listed s.types s.dialogsReported s.dialogs ∧ Listed s.types s.leftReported s.left := by
  intro h
  obtain ⟨s, hrun, hrepeats⟩ : ∃ s : ApiWrap Unit,
      (ApiWrap.start Unit Types.personalChats 0).run
        [.dialogs (.dialogsSlice [personalChat] 0) true,
          .dialogs (.dialogsSlice [personalChat] 0) true] = some s ∧
      ¬ NoRepeats s.types s.dialogsReported := by
    refine ⟨_, rfl, ?_⟩
    show ¬ List.Nodup [((7 : PeerId), 0), (7, 0)]
    decide
  have hstart : (ApiWrap.start Unit Types.personalChats 0).IsMerged := ⟨merged_nil, merged_nil⟩
  exact hrepeats ((hstart.run hrun).dialogs.repeats_iff.mp (h _ s hrun).1)

end TelegramClient.Export
