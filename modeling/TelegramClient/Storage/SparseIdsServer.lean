import TelegramClient.Storage.SparseIdsList

/-! What the known parts of a list of message ids are of the list that the server has, and the
answers to queries (`storage/storage_sparse_ids_list.cpp`). -/

namespace TelegramClient.Storage

open OrderedSets Data Base

structure SparseIdsListQuery where
  aroundId : Int
  limitBefore : Int
  limitAfter : Int

structure SparseIdsListResult where
  count : Option Int := none
  skippedBefore : Option Int := none
  skippedAfter : Option Int := none
  messageIds : OrderedSet Int := .empty

structure SparseIdsSliceUpdate where
  messages : Option (OrderedSet Int) := none
  range : MsgRange := {}
  count : Option Int := none

/-- With the count, one of what is skipped gives the other. -/
def fillSkipped (count skippedBefore skippedAfter : Option Int) (size : Nat) :
    Option Int × Option Int :=
  match count, skippedBefore, skippedAfter with
  | some count, none, some after => (some (count - after - size), some after)
  | some count, some before, none => (some before, some (count - before - size))
  | _, _, _ => (skippedBefore, skippedAfter)

namespace SparseIdsList

def queryFromSlice (l : SparseIdsList) (query : SparseIdsListQuery) (slice : Slice) :
    SparseIdsListResult :=
  let position := slice.messages.lowerBound query.aroundId
  let haveBefore : Int := position
  let haveEqualOrAfter : Int := slice.messages.size - position
  let before := min haveBefore query.limitBefore
  let equalOrAfter := min haveEqualOrAfter (query.limitAfter + 1)
  let ids := (slice.messages.items.take (position + equalOrAfter).toNat).drop (position - before).toNat
  let messageIds := OrderedSet.empty.merge ids
  let skippedBefore := if slice.range.from = 0 then some (haveBefore - before) else none
  let skippedAfter :=
    if slice.range.till = serverMaxMsgId then some (haveEqualOrAfter - equalOrAfter) else none
  let skipped := fillSkipped l.count skippedBefore skippedAfter messageIds.size
  { count := l.count, skippedBefore := skipped.1, skippedAfter := skipped.2, messageIds }

/-- The producer puts one value at most. -/
def query (l : SparseIdsList) (query : SparseIdsListQuery) : Option SparseIdsListResult :=
  let slice :=
    if query.aroundId ≠ 0 then
      l.slices[(l.slices.takeWhile fun s => s.range.till < query.aroundId).length]?
    else none
  match slice.filter (·.range.from ≤ query.aroundId) with
  | some slice => some (l.queryFromSlice query slice)
  | none => l.count.map fun count => { count := some count }

/-- Where the slice is that has what was added. -/
def updatedAt (slices : List Slice) (messages : List Int) (noSkipRange : MsgRange) : Nat :=
  let uniteFrom := (slices.takeWhile fun s => s.range.till < noSkipRange.from).length
  let uniteTill := (slices.takeWhile fun s => s.range.from ≤ noSkipRange.till).length
  if uniteFrom < uniteTill then uniteFrom
  else (FlatSet.insert bySliceFrom slices ⟨.ofList messages, noSkipRange⟩).2.1

/-- What `addRange` fires. -/
def sliceUpdate (l : SparseIdsList) (messages : List Int) (noSkipRange : MsgRange)
    (count : Option Int) (incrementCount : Bool) : SparseIdsSliceUpdate :=
  let slices := (addRangeItemsAndCountNew l.slices messages noSkipRange).1
  let slice := slices[updatedAt l.slices messages noSkipRange]?
  { messages := slice.map (·.messages)
    range := slice.elim {} (·.range)
    count := (l.addRange messages noSkipRange count incrementCount).count }

def Op.update (l : SparseIdsList) : Op → Option SparseIdsSliceUpdate
  | .addNew messageId => some (l.sliceUpdate [messageId] ⟨messageId, serverMaxMsgId⟩ none true)
  | .addExisting messageId noSkipRange => some (l.sliceUpdate [messageId] noSkipRange none false)
  | .addSlice messageIds noSkipRange count => some (l.sliceUpdate messageIds noSkipRange count false)
  | _ => none

/-! ### What the server tells -/

/-- The messages are those that the server has in the range. -/
structure Knows (t : OrderedSet Int) (messages : List Int) (range : MsgRange) : Prop where
  from_le : range.from ≤ range.till
  till_le : range.till ≤ serverMaxMsgId
  mem_iff : ∀ id, id ∈ messages ↔ id ∈ t ∧ range.has id

/-- A message comes after all that is known, but for a part that goes to the end. -/
def Missed (l : SparseIdsList) (id : Int) : Prop :=
  ∀ s ∈ l.slices, s.range.from < id ∧ (∀ known ∈ s.messages, known < id) ∧
    (s.range.till = serverMaxMsgId ∨ s.range.till < id)

/-- What the list is told, of the messages that the server has before and after it. -/
inductive Told (l : SparseIdsList) (t : OrderedSet Int) : Op → OrderedSet Int → Prop
  | addNew {messageId : Int} (hserver : isServerMsgId messageId)
      (hnew : ∀ id ∈ t, id < messageId) : Told l t (.addNew messageId) (t.merge [messageId])
  | addExisting {messageId : Int} {range : MsgRange} (hknows : Knows t [messageId] range) :
      Told l t (.addExisting messageId range) t
  | addSlice {messageIds : List Int} {range : MsgRange} {count : Option Int}
      (hknows : Knows t messageIds range) (hcount : ∀ c, count = some c → c = t.size) :
      Told l t (.addSlice messageIds range count) t
  | removeOne {messageId : Int} (hmem : messageId ∈ t) :
      Told l t (.removeOne messageId) (t.remove messageId)
  | removeAll : Told l t .removeAll .empty
  | invalidateBottom {missed : List Int} (hserver : ∀ id ∈ missed, isServerMsgId id)
      (hmissed : ∀ id ∈ missed, l.Missed id) : Told l t .invalidateBottom (t.merge missed)

/-- The lists of the client and of the server in a run. -/
inductive Reached : SparseIdsList → OrderedSet Int → Prop
  | start {t : OrderedSet Int} (hserver : ∀ id ∈ t, isServerMsgId id) : Reached {} t
  | step {l : SparseIdsList} {t t' : OrderedSet Int} {op : Op} (h : Reached l t)
      (htold : l.Told t op t') : Reached (l.step op) t'

/-! ### The parts are those of the server -/

/-- The messages of each slice are all that the server has in its range. -/
structure Faithful (l : SparseIdsList) (t : OrderedSet Int) : Prop where
  ordered : Ordered l.slices
  till_le : ∀ s ∈ l.slices, s.range.till ≤ serverMaxMsgId
  exact : ∀ s ∈ l.slices, ∀ id, id ∈ s.messages ↔ id ∈ t ∧ s.range.has id
  count : ∀ c, l.count = some c → c = t.size
  server : ∀ id ∈ t, isServerMsgId id

variable {l : SparseIdsList} {t t' : OrderedSet Int} {slices before united after others : List Slice}
  {s x : Slice} {messages : List Int} {range : MsgRange} {id : Int} {op : Op}

theorem has_merge (htouches : s.Touches range) :
    (s.merge messages range).range.has id ↔ s.range.has id ∨ range.has id := by
  obtain ⟨hfrom, htill⟩ := htouches
  show min s.range.from range.from ≤ id ∧ id ≤ max s.range.till range.till ↔ _
  rw [MsgRange.has, MsgRange.has]
  omega

theorem has_mergeAll (hothers : ∀ it ∈ others, it.Touches range) (hfrom : s.range.from ≤ range.from)
    (htill : range.till ≤ s.range.till) :
    (mergeAll s others).range.has id ↔ s.range.has id ∨ ∃ it ∈ others, it.range.has id := by
  induction others generalizing s with
  | nil => simp [mergeAll]
  | cons it others ih =>
    obtain ⟨hit, hrest⟩ := List.forall_mem_cons.mp hothers
    have htouches : s.Touches it.range := ⟨hit.2.trans htill, hfrom.trans hit.1⟩
    have hmerge := ih (s := s.merge it.messages.items it.range) hrest ((min_le_left _ _).trans hfrom)
      (htill.trans (le_max_left _ _))
    rw [show mergeAll s (it :: others) = mergeAll (s.merge it.messages.items it.range) others from rfl,
      hmerge, has_merge htouches, or_assoc]
    simp

/-- The slices that a range touches and the range have no gap between them. -/
theorem has_unite (hunited : ∀ it ∈ united, it.Touches range) :
    (unite united messages range).range.has id ↔ range.has id ∨ ∃ it ∈ united, it.range.has id := by
  cases united with
  | nil => simp [unite]
  | cons x others =>
    obtain ⟨hx, hothers⟩ := List.forall_mem_cons.mp hunited
    have hmerge := @has_mergeAll others (x.merge messages range) range id hothers
      (min_le_right _ _) (le_max_right _ _)
    rw [unite, hmerge, has_merge hx]
    simp only [List.mem_cons, exists_eq_or_imp]
    tauto

theorem till_mergeAll_le {till : Int} (hs : s.range.till ≤ till)
    (hothers : ∀ it ∈ others, it.range.till ≤ till) : (mergeAll s others).range.till ≤ till := by
  induction others generalizing s with
  | nil => exact hs
  | cons it others ih =>
    obtain ⟨hit, hrest⟩ := List.forall_mem_cons.mp hothers
    exact ih (s := s.merge it.messages.items it.range) (max_le hs hit) hrest

theorem till_unite_le {till : Int} (hrange : range.till ≤ till)
    (hunited : ∀ it ∈ united, it.range.till ≤ till) : (unite united messages range).range.till ≤ till := by
  cases united with
  | nil => exact hrange
  | cons x others =>
    obtain ⟨hx, hothers⟩ := List.forall_mem_cons.mp hunited
    exact till_mergeAll_le (max_le hx hrange) hothers

theorem Knows.contained (h : Knows t messages range) : Contained messages range :=
  ⟨h.from_le, fun id hid => ((h.mem_iff id).mp hid).2⟩

theorem Faithful.addRange_exact (hf : Faithful l t) (hknows : Knows t' messages range)
    (hadds : ∀ id, id ∈ t' ↔ id ∈ t ∨ id ∈ messages) :
    ∀ s ∈ (addRangeItemsAndCountNew l.slices messages range).1,
      ∀ id, id ∈ s.messages ↔ id ∈ t' ∧ s.range.has id := by
  obtain ⟨before, united, after, hslices, hbefore, hunited, hafter⟩ := hf.ordered.split range
  have hordered := hf.ordered
  have hexact := hf.exact
  rw [hslices] at hordered hexact ⊢
  rw [hordered.addRangeItems_eq hknows.contained hbefore hunited hafter]
  have hold : ∀ s ∈ before ++ united ++ after, (∀ id, range.has id → ¬s.range.has id) →
      ∀ id, id ∈ s.messages ↔ id ∈ t' ∧ s.range.has id := by
    intro s hs hdisjoint id
    rw [hexact s hs, hadds]
    refine and_congr_left fun hid => (or_iff_left fun hmessage => ?_).symm
    exact hdisjoint id (hknows.contained.2 id hmessage) hid
  intro s hs
  rcases List.mem_append.mp hs with hs | hs
  · refine hold s (by simp [hs]) fun id hrange hid => ?_
    exact absurd (hid.2.trans_lt (hbefore s hs)) (not_lt.mpr hrange.1)
  rcases List.mem_cons.mp hs with rfl | hs
  · -- the messages of the united slices, and those that came
    intro id
    have hmessages : (∃ it ∈ united, id ∈ it.messages) ↔ id ∈ t ∧ ∃ it ∈ united, it.range.has id := by
      constructor
      · rintro ⟨it, hit, hid⟩
        obtain ⟨hmem, hhas⟩ := (hexact it (by simp [hit]) id).mp hid
        exact ⟨hmem, it, hit, hhas⟩
      · rintro ⟨hmem, it, hit, hhas⟩
        exact ⟨it, hit, (hexact it (by simp [hit]) id).mpr ⟨hmem, hhas⟩⟩
    rw [mem_unite, has_unite hunited, hmessages, hknows.mem_iff id]
    have hadd := hadds id
    have hknown := hknows.mem_iff id
    tauto
  · refine hold s (by simp [hs]) fun id hrange hid => ?_
    exact absurd (hrange.2.trans_lt (hafter s hs)) (not_lt.mpr hid.1)

theorem wholeRange_has (h : isServerMsgId id) : wholeRange.has id := by
  obtain ⟨hpos, hlt⟩ := isServerMsgId_iff.mp h
  exact ⟨hpos.le, hlt.le⟩

theorem count_addRange (l : SparseIdsList) (messages : List Int) (range : MsgRange)
    (count : Option Int) (incrementCount : Bool) :
    (l.addRange messages range count incrementCount).count =
      ((wholeSize (addRangeItemsAndCountNew l.slices messages range).1).or (l.counted
        (addRangeItemsAndCountNew l.slices messages range).2 count incrementCount)).map
          (max · (addRangeItemsAndCountNew l.slices messages range).2.inslice) := rfl

/-- A count that is right for the server stays right when the slice is looked at. -/
theorem Faithful.addRange_count (hf : Faithful l t) (hknows : Knows t' messages range)
    (hadds : ∀ id, id ∈ t' ↔ id ∈ t ∨ id ∈ messages) (hserver : ∀ id ∈ t', isServerMsgId id)
    {count : Option Int} {incrementCount : Bool}
    (hcounted : ∀ c, l.counted (addRangeItemsAndCountNew l.slices messages range).2 count
      incrementCount = some c → c = t'.size) :
    ∀ c, (l.addRange messages range count incrementCount).count = some c → c = t'.size := by
  intro c hc
  have hexact := hf.addRange_exact hknows hadds
  obtain ⟨before, united, after, s, hadded⟩ := hf.ordered.add hknows.contained
  have hs : s ∈ (addRangeItemsAndCountNew l.slices messages range).1 := by
    rw [hadded.slices]
    exact List.mem_append_right _ List.mem_cons_self
  have hinslice : s.messages.size ≤ t'.size :=
    OrderedSet.size_le fun id hid => ((hexact s hs id).mp hid).1
  rw [count_addRange, hadded.inslice] at hc
  obtain ⟨k, hk, rfl⟩ := Option.map_eq_some_iff.mp hc
  suffices heq : k = t'.size by omega
  rcases Option.or_eq_some_iff.mp hk with hwhole | ⟨-, hk⟩
  · obtain ⟨u, hu, hrange, rfl⟩ := wholeSize_eq_some_iff.mp hwhole
    have hexact := hexact u (by rw [hu]; exact List.mem_singleton_self u)
    have hall : u.messages = t' := OrderedSet.ext_mem fun id => by
      rw [hexact, hrange, and_iff_left_iff_imp]
      exact fun hid => wholeRange_has (hserver id hid)
    rw [hall]
  · exact hcounted k hk

theorem Faithful.addRange (hf : Faithful l t) (hknows : Knows t' messages range)
    (hadds : ∀ id, id ∈ t' ↔ id ∈ t ∨ id ∈ messages) (hserver : ∀ id ∈ t', isServerMsgId id)
    {count : Option Int} {incrementCount : Bool}
    (hcounted : ∀ c, l.counted (addRangeItemsAndCountNew l.slices messages range).2 count
      incrementCount = some c → c = t'.size) :
    Faithful (l.addRange messages range count incrementCount) t' where
  ordered := by
    obtain ⟨before, united, after, s, hadded⟩ := hf.ordered.add hknows.contained
    show Ordered (addRangeItemsAndCountNew l.slices messages range).1
    rw [hadded.slices]
    exact hadded.ordered
  till_le s hs := by
    obtain ⟨before, united, after, hslices, hbefore, hunited, hafter⟩ := hf.ordered.split range
    have hordered := hf.ordered
    have htill := hf.till_le
    have hnew : s ∈ (addRangeItemsAndCountNew l.slices messages range).1 := hs
    rw [hslices] at hordered htill hnew
    rw [hordered.addRangeItems_eq hknows.contained hbefore hunited hafter] at hnew
    rcases List.mem_append.mp hnew with hs | hs
    · exact htill s (by simp [hs])
    rcases List.mem_cons.mp hs with rfl | hs
    · exact till_unite_le hknows.till_le fun it hit => htill it (by simp [hit])
    · exact htill s (by simp [hs])
  exact := hf.addRange_exact hknows hadds
  count := hf.addRange_count hknows hadds hserver hcounted
  server := hserver

theorem contained_new (hle : id ≤ serverMaxMsgId) : Contained [id] ⟨id, serverMaxMsgId⟩ := by
  refine ⟨hle, fun a ha => ?_⟩
  rw [List.mem_singleton.mp ha]
  exact ⟨le_rfl, hle⟩

/-- A new message is one more in the slice that it comes into. -/
theorem Faithful.added_new (hf : Faithful l t) (hnew : ∀ id' ∈ t, id' < id) (hle : id ≤ serverMaxMsgId) :
    (addRangeItemsAndCountNew l.slices [id] ⟨id, serverMaxMsgId⟩).2.added = 1 := by
  obtain ⟨before, united, after, hslices, hbefore, hunited, hafter⟩ :=
    hf.ordered.split ⟨id, serverMaxMsgId⟩
  have hordered := hf.ordered
  have hexact := hf.exact
  rw [hslices] at hordered hexact ⊢
  rw [hordered.addRangeItems_eq (contained_new hle) hbefore hunited hafter]
  cases united with
  | nil => rfl
  | cons x others =>
    have hbelow : ∀ it ∈ x :: others, ∀ a ∈ it.messages, a < id := fun it hit a ha =>
      hnew a ((hexact it (by simp only [List.mem_append, hit, true_or, or_true]) a).mp ha).1
    have hothers : ∀ it ∈ others, ∀ a, a ∉ it.messages := by
      intro it hit a ha
      have hlt := hbelow it (List.mem_cons_of_mem x hit) a ha
      have hapart : x.range.till < it.range.from := by
        have hpair := (ordered_append_iff.mp hordered).1
        have hunited := (ordered_append_iff.mp hpair).2.1
        exact (List.pairwise_cons.mp hunited.apart).1 it hit
      have hfrom := (hordered.contained it (by simp [hit])).2 a ha
      have htouches := (hunited x List.mem_cons_self).1
      have hxid : id ≤ x.range.till := htouches
      have hita := hfrom.1
      omega
    have hmessages : (unite (x :: others) [id] ⟨id, serverMaxMsgId⟩).messages = x.messages.merge [id] := by
      refine OrderedSet.ext_mem fun a => ?_
      rw [mem_unite, OrderedSet.mem_merge, List.mem_singleton]
      constructor
      · rintro (rfl | ⟨it, hit, ha⟩)
        · exact .inr rfl
        rcases List.mem_cons.mp hit with rfl | hit
        · exact .inl ha
        · exact absurd ha (hothers it hit a)
      · rintro (ha | rfl)
        · exact .inr ⟨x, List.mem_cons_self, ha⟩
        · exact .inl rfl
    have hsize : (x.messages.merge [id]).size = x.messages.size + 1 :=
      OrderedSet.size_merge_singleton fun hmem => absurd (hbelow x List.mem_cons_self id hmem) (lt_irrefl id)
    rw [hmessages, hsize]
    show ((x.messages.size + 1 : Nat) : Int) - x.messages.size = 1
    omega

theorem Faithful.addNew (hf : Faithful l t) (hserver : isServerMsgId id) (hnew : ∀ id' ∈ t, id' < id) :
    Faithful (l.addNew id) (t.merge [id]) := by
  have hle : id ≤ serverMaxMsgId := (wholeRange_has hserver).2
  have hnone : id ∉ t := fun hmem => lt_irrefl id (hnew id hmem)
  have hadds : ∀ a, a ∈ t.merge [id] ↔ a ∈ t ∨ a ∈ [id] := fun a => OrderedSet.mem_merge
  refine hf.addRange ⟨hle, le_rfl, fun a => ?_⟩ hadds (fun a ha => ?_) fun c hc => ?_
  · rw [hadds, List.mem_singleton]
    constructor
    · rintro rfl
      exact ⟨.inr rfl, le_rfl, hle⟩
    · rintro ⟨ha | ha, hfrom, -⟩
      · exact absurd (hnew a ha) (not_lt.mpr hfrom)
      · exact ha
  · rcases (hadds a).mp ha with ha | ha
    · exact hf.server a ha
    · rwa [List.mem_singleton.mp ha]
  · rw [counted, hf.added_new hnew hle] at hc
    obtain ⟨k, hk, rfl⟩ := Option.map_eq_some_iff.mp hc
    rw [OrderedSet.size_merge_singleton hnone, hf.count k hk]
    rfl

/-- What is told of a range leaves the server as it is. -/
theorem Faithful.addKnown (hf : Faithful l t) (hknows : Knows t messages range) {count : Option Int}
    (hcount : ∀ c, count = some c → c = t.size) :
    Faithful (l.addRange messages range count false) t := by
  refine hf.addRange hknows (fun id => ?_) hf.server fun c hc => ?_
  · exact (or_iff_left_of_imp fun hid => ((hknows.mem_iff id).mp hid).1).symm
  · cases count with
    | none => exact hf.count c hc
    | some k => exact hcount c hc

theorem Faithful.removeOne (hf : Faithful l t) (hmem : id ∈ t) :
    Faithful (l.removeOne id) (t.remove id) where
  ordered := hf.ordered.removeOne id
  till_le s hs := by
    rw [hf.ordered.removeOne_slices] at hs
    obtain ⟨u, hu, rfl⟩ := List.mem_map.mp hs
    exact hf.till_le u hu
  exact s hs a := by
    rw [hf.ordered.removeOne_slices] at hs
    obtain ⟨u, hu, rfl⟩ := List.mem_map.mp hs
    have hremove : a ∈ (u.remove id).messages ↔ a ∈ u.messages ∧ a ≠ id := OrderedSet.mem_remove
    rw [hremove, OrderedSet.mem_remove, hf.exact u hu]
    exact and_right_comm
  count c hc := by
    obtain ⟨k, hk, rfl⟩ := Option.map_eq_some_iff.mp hc
    have hsize := OrderedSet.size_remove hmem
    have hcount := hf.count k hk
    omega
  server a ha := hf.server a (OrderedSet.mem_remove.mp ha).1

theorem faithful_removeAll : Faithful SparseIdsList.removeAll .empty where
  ordered := ordered_removeAll
  till_le s hs := by
    rw [List.mem_singleton.mp hs]
    exact le_rfl
  exact s hs id := by
    rw [List.mem_singleton.mp hs]
    exact (and_iff_left_of_imp fun hid => absurd hid List.not_mem_nil).symm
  count c hc := (Option.some.inj hc).symm
  server id hid := absurd hid List.not_mem_nil

/-- A slice that goes to the end is the last, and it is cut after its last message. -/
theorem Faithful.invalidateBottom_slices (hf : Faithful l t) :
    (l.invalidateBottom.slices = l.slices ∧ ∀ s ∈ l.slices, s.range.till ≠ serverMaxMsgId) ∨
      ∃ before last, l.slices = before ++ [last] ∧
        l.invalidateBottom.slices = before ++ [last.cutTill] ∧
          ∀ s ∈ before, s.range.till ≠ serverMaxMsgId := by
  have hslices : l.invalidateBottom.slices =
    if l.slices.getLast?.any fun s => s.range.till = serverMaxMsgId
      then bySliceFrom.modify true l.slices (l.slices.length - 1) Slice.cutTill else l.slices := rfl
  have h := hf.ordered
  have htill := hf.till_le
  rw [hslices]
  generalize l.slices = slices at h htill
  rcases List.eq_nil_or_concat' slices with rfl | ⟨before, last, rfl⟩
  · exact .inl ⟨rfl, by simp⟩
  obtain ⟨-, hlast⟩ := ordered_middle_iff.mp h
  have hbefore : ∀ b ∈ before, b.range.till ≠ serverMaxMsgId := by
    intro b hb hend
    have hlt := hlast.before b hb
    have hle := htill last (by simp)
    have hfrom := hlast.contained.1
    omega
  rw [List.getLast?_concat]
  by_cases hend : last.range.till = serverMaxMsgId
  · rw [if_pos (by simpa using hend)]
    have hlength : (before ++ [last]).length - 1 = before.length := by simp
    refine .inr ⟨before, last, rfl, ?_, hbefore⟩
    rw [hlength, modify_between]
    · intro b hb
      exact (h.contained b (by simp [hb])).1.trans_lt (hlast.before b hb)
    · simp
  · rw [if_neg (by simpa using hend)]
    refine .inl ⟨rfl, fun s hs => ?_⟩
    rcases List.mem_append.mp hs with hs | hs
    · exact hbefore s hs
    · rwa [List.mem_singleton.mp hs]

/-- What is left of a slice when messages may have been missed: all of it, or what comes before
its last message where it goes to the end. -/
theorem Faithful.mem_invalidateBottom (hf : Faithful l t) (hs : s ∈ l.invalidateBottom.slices) :
    (s ∈ l.slices ∧ s.range.till ≠ serverMaxMsgId) ∨ ∃ u ∈ l.slices, s = u.cutTill := by
  rcases hf.invalidateBottom_slices with ⟨hsame, htill⟩ | ⟨before, last, hslices, hcut, htill⟩
  · rw [hsame] at hs
    exact .inl ⟨hs, htill s hs⟩
  · rw [hcut] at hs
    rw [hslices]
    rcases List.mem_append.mp hs with hs | hs
    · exact .inl ⟨List.mem_append_left _ hs, htill s hs⟩
    · exact .inr ⟨last, by simp, List.mem_singleton.mp hs⟩

theorem Faithful.invalidateBottom_mem (hf : Faithful l t) (hs : s ∈ l.slices) :
    s ∈ l.invalidateBottom.slices ∨ s.cutTill ∈ l.invalidateBottom.slices := by
  rcases hf.invalidateBottom_slices with ⟨hsame, -⟩ | ⟨before, last, hslices, hcut, -⟩
  · rw [hsame]
    exact .inl hs
  · rw [hslices] at hs
    rw [hcut]
    rcases List.mem_append.mp hs with hs | hs
    · exact .inl (List.mem_append_left _ hs)
    · rw [List.mem_singleton.mp hs]
      exact .inr (by simp)

/-- Slices that have an id in common are the same. -/
theorem Ordered.eq_of_touches (h : Ordered slices) (hs : s ∈ slices) (hx : x ∈ slices)
    (hfrom : s.range.from ≤ x.range.till) (htill : x.range.from ≤ s.range.till) : x = s := by
  obtain ⟨left, right, rfl⟩ := List.append_of_mem hs
  obtain ⟨-, hbetween⟩ := ordered_middle_iff.mp h
  rw [List.mem_append, List.mem_cons] at hx
  rcases hx with hx | rfl | hx
  · exact absurd (hbetween.before x hx) (not_lt.mpr hfrom)
  · rfl
  · exact absurd (hbetween.after x hx) (not_lt.mpr htill)

theorem Faithful.invalidateBottom (hf : Faithful l t) {missed : List Int}
    (hserver : ∀ id ∈ missed, isServerMsgId id) (hmissed : ∀ id ∈ missed, l.Missed id) :
    Faithful l.invalidateBottom (t.merge missed) where
  ordered := hf.ordered.invalidateBottom
  till_le s hs := by
    rcases hf.mem_invalidateBottom hs with ⟨hs, -⟩ | ⟨u, hu, rfl⟩
    · exact hf.till_le s hs
    · exact (contained_cutTill (hf.ordered.contained u hu)).2.trans (hf.till_le u hu)
  exact s hs id := by
    rw [OrderedSet.mem_merge]
    rcases hf.mem_invalidateBottom hs with ⟨hs, hend⟩ | ⟨u, hu, rfl⟩
    · rw [hf.exact s hs]
      refine and_congr_left fun hid => (or_iff_left fun hmem => ?_).symm
      have htill := (hmissed id hmem s hs).2.2.resolve_left hend
      exact absurd htill (not_lt.mpr hid.2)
    · obtain ⟨⟨-, hcut⟩, htill⟩ := contained_cutTill (hf.ordered.contained u hu)
      have hexact := hf.exact u hu id
      constructor
      · intro hid
        exact ⟨.inl (hexact.mp hid).1, hcut id hid⟩
      · rintro ⟨hmem | hmem, hid⟩
        · exact hexact.mpr ⟨hmem, hid.1, hid.2.trans htill⟩
        · obtain ⟨hfrom, hknown, -⟩ := hmissed id hmem u hu
          have hle : id ≤ u.messages.items.getLast?.getD u.range.from := hid.2
          cases hlast : u.messages.items.getLast? with
          | none =>
            rw [hlast] at hle
            exact absurd hfrom (not_lt.mpr hle)
          | some last =>
            rw [hlast] at hle
            exact absurd (hknown last (List.mem_of_getLast? hlast)) (not_lt.mpr hle)
  count c hc := by cases hc
  server id hid := (OrderedSet.mem_merge.mp hid).elim (hf.server id) (hserver id)

/-- What is told keeps the list faithful. -/
theorem Faithful.step (hf : Faithful l t) (htold : l.Told t op t') : Faithful (l.step op) t' := by
  cases htold with
  | addNew hserver hnew => exact hf.addNew hserver hnew
  | addExisting hknows => exact hf.addKnown hknows fun c hc => by cases hc
  | addSlice hknows hcount => exact hf.addKnown hknows hcount
  | removeOne hmem => exact hf.removeOne hmem
  | removeAll => exact faithful_removeAll
  | invalidateBottom hserver hmissed => exact hf.invalidateBottom hserver hmissed

theorem Reached.faithful (h : Reached l t) : Faithful l t := by
  induction h with
  | start hserver => exact ⟨⟨.nil, by simp⟩, by simp, by simp, fun c hc => (by cases hc), hserver⟩
  | step h htold ih => exact ih.step htold

/-! ### The updates -/

theorem Ordered.updatedAt_eq (h : Ordered (before ++ united ++ after)) (hm : Contained messages range)
    (hbefore : ∀ b ∈ before, b.range.till < range.from)
    (hunited : ∀ it ∈ united, it.Touches range) (hafter : ∀ a ∈ after, range.till < a.range.from) :
    updatedAt (before ++ united ++ after) messages range = before.length := by
  obtain ⟨hfrom, htill⟩ := h.length_before hm.1 hbefore hunited hafter
  rw [updatedAt, hfrom, htill]
  cases united with
  | nil =>
    rw [List.append_nil] at h ⊢
    have hs : Between before after (OrderedSet.ofList messages).items range :=
      ⟨⟨hm.1, fun id hid => hm.2 id (OrderedSet.mem_ofList.mp hid)⟩, hbefore, hafter⟩
    rw [List.length_nil, Nat.add_zero, if_neg (lt_irrefl _),
      insert_between (s := ⟨.ofList messages, range⟩) h hs]
  | cons x others => rw [List.length_cons, if_pos (by omega)]

/-- A part of the list with all that it had, and to the end where it was. -/
def Extends (s u : Slice) : Prop :=
  (∀ id, u.range.has id → s.range.has id) ∧
    (u.range.till = serverMaxMsgId → s.range.till = serverMaxMsgId)

/-- What an update says of the list after it. -/
structure Updated (l next : SparseIdsList) (update : SparseIdsSliceUpdate) (range : MsgRange) (s : Slice) :
    Prop where
  mem : s ∈ next.slices
  update : update = ⟨some s.messages, s.range, next.count⟩
  has : ∀ id, range.has id → s.range.has id
  till : range.till = serverMaxMsgId → s.range.till = serverMaxMsgId
  grows : ∀ u ∈ l.slices, ∃ s ∈ next.slices, Extends s u
  count : next.count = none → l.count = none

theorem le_till_mergeAll : s.range.till ≤ (mergeAll s others).range.till ∧
    ∀ it ∈ others, it.range.till ≤ (mergeAll s others).range.till := by
  induction others generalizing s with
  | nil => exact ⟨le_rfl, by simp⟩
  | cons it others ih =>
    obtain ⟨hs, hothers⟩ := ih (s := s.merge it.messages.items it.range)
    refine ⟨(le_max_left _ _).trans hs, fun u hu => ?_⟩
    rcases List.mem_cons.mp hu with rfl | hu
    · exact (le_max_right _ _).trans hs
    · exact hothers u hu

theorem le_till_unite : range.till ≤ (unite united messages range).range.till ∧
    ∀ it ∈ united, it.range.till ≤ (unite united messages range).range.till := by
  cases united with
  | nil => exact ⟨le_rfl, by simp⟩
  | cons x others =>
    obtain ⟨hx, hothers⟩ := @le_till_mergeAll others (x.merge messages range)
    refine ⟨(le_max_right _ _).trans hx, fun it hit => ?_⟩
    rcases List.mem_cons.mp hit with rfl | hit
    · exact (le_max_left _ _).trans hx
    · exact hothers it hit

theorem Faithful.updated (hf : Faithful l t) (hm : Contained messages range)
    (htill : range.till ≤ serverMaxMsgId) (count : Option Int) (incrementCount : Bool) :
    ∃ s, Updated l (l.addRange messages range count incrementCount)
      (l.sliceUpdate messages range count incrementCount) range s := by
  obtain ⟨before, united, after, hslices, hbefore, hunited, hafter⟩ := hf.ordered.split range
  have hordered := hf.ordered
  have htills := hf.till_le
  rw [hslices] at hordered htills
  have hadded := hordered.addRangeItems_eq hm hbefore hunited hafter
  rw [← hslices] at hadded
  have hnext : (l.addRange messages range count incrementCount).slices =
      before ++ unite united messages range :: after := by
    show (addRangeItemsAndCountNew l.slices messages range).1 = _
    rw [hadded]
  have hle : (unite united messages range).range.till ≤ serverMaxMsgId :=
    till_unite_le htill fun it hit => htills it (by simp [hit])
  obtain ⟨hrange, hothers⟩ := @le_till_unite united messages range
  refine ⟨unite united messages range, ?_, ?_, ?_, ?_, ?_, ?_⟩
  · rw [hnext]
    exact List.mem_append_right _ List.mem_cons_self
  · have hat : updatedAt l.slices messages range = before.length := by
      rw [hslices]
      exact hordered.updatedAt_eq hm hbefore hunited hafter
    simp only [sliceUpdate, hat, hadded, List.getElem?_append_right (le_refl before.length), Nat.sub_self,
      List.getElem?_cons_zero, Option.map_some, Option.elim_some]
  · exact fun id hid => (has_unite hunited).mpr (.inl hid)
  · exact fun hend => le_antisymm hle (hend ▸ hrange)
  · intro u hu
    rw [hslices, List.mem_append, List.mem_append] at hu
    rw [hnext]
    rcases hu with (hu | hu) | hu
    · exact ⟨u, List.mem_append_left _ hu, fun _ hid => hid, fun hend => hend⟩
    · refine ⟨unite united messages range, List.mem_append_right _ List.mem_cons_self, fun id hid => ?_,
        fun hend => le_antisymm hle (hend ▸ hothers u hu)⟩
      exact (has_unite hunited).mpr (.inr ⟨u, hu, hid⟩)
    · exact ⟨u, List.mem_append_right _ (List.mem_cons_of_mem _ hu), fun _ hid => hid, fun hend => hend⟩
  · intro hnone
    rw [count_addRange, Option.map_eq_none_iff, Option.or_eq_none_iff] at hnone
    have hcounted := hnone.2
    cases count with
    | some c => cases hcounted
    | none =>
      simp only [counted] at hcounted
      split at hcounted
      · exact Option.map_eq_none_iff.mp hcounted
      · exact hcounted

/-! ### The answers -/

/-- A number that is known is right. -/
def Exact (known : Option Int) (n : Nat) : Prop := ∀ k, known = some k → k = n

/-- The messages of an answer are what is left of all that the server has around an id, without
some of the first and some of the last. -/
structure Window (t : OrderedSet Int) (query : SparseIdsListQuery) (result : SparseIdsListResult)
    (before after : List Int) : Prop where
  items : t.items = before ++ result.messageIds.items ++ after
  isBefore : ∀ id ∈ before, id < query.aroundId
  isAfter : ∀ id ∈ after, query.aroundId ≤ id
  skippedBefore : Exact result.skippedBefore before.length
  skippedAfter : Exact result.skippedAfter after.length
  count : Exact result.count t.size

/-- The messages are as many as the query asks for, if the slice has them. -/
structure Filled (messages : OrderedSet Int) (query : SparseIdsListQuery) (result : OrderedSet Int) :
    Prop where
  before : ((result.items.countP (· < query.aroundId) : Nat) : Int) = query.limitBefore ∨
    ((result.items.countP (· < query.aroundId) : Nat) : Int) < query.limitBefore ∧
      ∀ id ∈ messages, id < query.aroundId → id ∈ result
  after : ((result.items.countP (query.aroundId ≤ ·) : Nat) : Int) = query.limitAfter + 1 ∨
    ((result.items.countP (query.aroundId ≤ ·) : Nat) : Int) < query.limitAfter + 1 ∧
      ∀ id ∈ messages, query.aroundId ≤ id → id ∈ result

theorem exact_if {known : Prop} [Decidable known] {m n : Nat} (h : known → m = n) :
    Exact (if known then some (n : Int) else none) m := by
  intro k hk
  by_cases hknown : known
  · rw [if_pos hknown] at hk
    rw [h hknown, Option.some.inj hk]
  · rw [if_neg hknown] at hk
    cases hk

theorem fillSkipped_exact {count skippedBefore skippedAfter : Option Int} {total before size after : Nat}
    (htotal : total = before + size + after) (hcount : Exact count total)
    (hbefore : Exact skippedBefore before) (hafter : Exact skippedAfter after) :
    Exact (fillSkipped count skippedBefore skippedAfter size).1 before ∧
      Exact (fillSkipped count skippedBefore skippedAfter size).2 after := by
  cases count with
  | none => exact ⟨hbefore, hafter⟩
  | some c =>
    have hc := hcount c rfl
    cases skippedBefore with
    | none =>
      cases skippedAfter with
      | none => exact ⟨hbefore, hafter⟩
      | some a =>
        have ha := hafter a rfl
        refine ⟨fun k hk => ?_, hafter⟩
        obtain rfl : c - a - size = k := Option.some.inj hk
        omega
    | some b =>
      have hb := hbefore b rfl
      cases skippedAfter with
      | none =>
        refine ⟨hbefore, fun k hk => ?_⟩
        obtain rfl : c - b - size = k := Option.some.inj hk
        omega
      | some a => exact ⟨hbefore, hafter⟩

/-- What a query takes of a slice: some of the messages before an id and of those from it on. -/
structure Taken (l : SparseIdsList) (query : SparseIdsListQuery) (s : Slice) (before equalOrAfter : Nat) :
    Prop where
  beforeLe : before ≤ s.messages.lowerBound query.aroundId
  afterLe : equalOrAfter ≤ s.messages.size - s.messages.lowerBound query.aroundId
  manyBefore : (before : Int) = query.limitBefore ∨
    (before : Int) < query.limitBefore ∧ before = s.messages.lowerBound query.aroundId
  manyAfter : (equalOrAfter : Int) = query.limitAfter + 1 ∨
    (equalOrAfter : Int) < query.limitAfter + 1 ∧
      equalOrAfter = s.messages.size - s.messages.lowerBound query.aroundId
  messageIds : (l.queryFromSlice query s).messageIds = OrderedSet.empty.merge
    ((s.messages.items.take (s.messages.lowerBound query.aroundId + equalOrAfter)).drop
      (s.messages.lowerBound query.aroundId - before))
  count : (l.queryFromSlice query s).count = l.count
  skipped : ((l.queryFromSlice query s).skippedBefore, (l.queryFromSlice query s).skippedAfter) =
    fillSkipped l.count
      (if s.range.from = 0 then some ↑(s.messages.lowerBound query.aroundId - before) else none)
      (if s.range.till = serverMaxMsgId then
        some ↑(s.messages.size - s.messages.lowerBound query.aroundId - equalOrAfter) else none)
      (l.queryFromSlice query s).messageIds.size

theorem exists_taken {query : SparseIdsListQuery} (hbefore : 0 ≤ query.limitBefore)
    (hafter : 0 ≤ query.limitAfter) : ∃ before equalOrAfter, Taken l query s before equalOrAfter := by
  have hle : s.messages.lowerBound query.aroundId ≤ s.messages.size := s.messages.lowerBound_le
  obtain ⟨b, hb⟩ := Int.eq_ofNat_of_zero_le
    (le_min (Int.natCast_nonneg (s.messages.lowerBound query.aroundId)) hbefore)
  obtain ⟨e, he⟩ := Int.eq_ofNat_of_zero_le
    (le_min (Int.natCast_nonneg (s.messages.size - s.messages.lowerBound query.aroundId))
      (hafter.trans (Int.le_add_one le_rfl) : 0 ≤ query.limitAfter + 1))
  rw [Nat.cast_sub hle] at he
  have htill : ((s.messages.lowerBound query.aroundId : Int) + e).toNat =
    s.messages.lowerBound query.aroundId + e := by omega
  have hfrom : ((s.messages.lowerBound query.aroundId : Int) - b).toNat =
    s.messages.lowerBound query.aroundId - b := by omega
  have hskippedBefore : ((s.messages.lowerBound query.aroundId - b : Nat) : Int) =
    s.messages.lowerBound query.aroundId - b := by omega
  have hskippedAfter : ((s.messages.size - s.messages.lowerBound query.aroundId - e : Nat) : Int) =
    s.messages.size - s.messages.lowerBound query.aroundId - e := by omega
  refine ⟨b, e, by omega, by omega, by omega, by omega, ?_, rfl, ?_⟩
  · unfold queryFromSlice
    simp only [hb, he, htill, hfrom]
  · unfold queryFromSlice
    simp only [hb, he, htill, hfrom, hskippedBefore, hskippedAfter]

theorem drop_take_around {items : List Int} {position before equalOrAfter : Nat}
    (hle : position ≤ items.length) :
    (items.take (position + equalOrAfter)).drop (position - before) =
      (items.take position).drop (position - before) ++ (items.drop position).take equalOrAfter := by
  have htake : (items.take position).length = position := List.length_take_of_le hle
  rw [List.take_add, List.drop_append_of_le_length (by omega)]

/-- The answer from a slice that an id is in. -/
theorem Faithful.queryFromSlice (hf : Faithful l t) (hs : s ∈ l.slices) {query : SparseIdsListQuery}
    (haround : s.range.has query.aroundId) (hbefore : 0 ≤ query.limitBefore)
    (hafter : 0 ≤ query.limitAfter) :
    (∃ before after, Window t query (l.queryFromSlice query s) before after) ∧
      Filled s.messages query (l.queryFromSlice query s).messageIds := by
  obtain ⟨lo, hi, hitems, hlo, hhi⟩ := OrderedSet.items_between (hf.exact s hs)
  obtain ⟨b, e, htaken⟩ := @exists_taken l s query hbefore hafter
  have hle := s.messages.lowerBound_le (a := query.aroundId)
  have hlt := fun id => s.messages.lt_of_mem_take (a := query.aroundId) (b := id)
  have hge := fun id => s.messages.le_of_mem_drop (a := query.aroundId) (b := id)
  obtain ⟨hbeforeLe, hafterLe, hmanyBefore, hmanyAfter, hids, hcount, hskipped⟩ := htaken
  generalize s.messages.lowerBound query.aroundId = position at *
  rw [drop_take_around hle] at hids
  have hsplit : s.messages.items = (s.messages.items.take position).take (position - b) ++
      ((s.messages.items.take position).drop (position - b) ++
        (s.messages.items.drop position).take e) ++ (s.messages.items.drop position).drop e := by
    rw [← List.append_assoc, List.take_append_drop, List.append_assoc, List.take_append_drop,
      List.take_append_drop]
  have hanswer : (l.queryFromSlice query s).messageIds.items =
      (s.messages.items.take position).drop (position - b) ++ (s.messages.items.drop position).take e := by
    rw [hids]
    refine OrderedSet.items_merge_empty ?_
    have hsorted := s.messages.sorted
    rw [hsplit] at hsorted
    exact (List.pairwise_append.mp (List.pairwise_append.mp hsorted).1).2.1
  have hlengthTake : (s.messages.items.take position).length = position := List.length_take_of_le hle
  have hlengthDrop : (s.messages.items.drop position).length = s.messages.size - position :=
    List.length_drop
  have hpart : ((s.messages.items.take position).drop (position - b)).length = b := by
    rw [List.length_drop, hlengthTake]
    omega
  have hpart' : ((s.messages.items.drop position).take e).length = e := by
    rw [List.length_take, hlengthDrop]
    omega
  have hwindow : t.items = (lo ++ (s.messages.items.take position).take (position - b)) ++
      (l.queryFromSlice query s).messageIds.items ++ ((s.messages.items.drop position).drop e ++ hi) := by
    rw [hanswer, hitems]
    conv_lhs => rw [hsplit]
    simp only [List.append_assoc]
  have hsize : (l.queryFromSlice query s).messageIds.size = b + e := by
    show (l.queryFromSlice query s).messageIds.items.length = b + e
    rw [hanswer, List.length_append, hpart, hpart']
  have hserver : ∀ a ∈ t.items, 0 ≤ a ∧ a ≤ serverMaxMsgId := fun a ha => wholeRange_has (hf.server a ha)
  have hexactBefore : Exact (if s.range.from = 0 then some ((position - b : Nat) : Int) else none)
      (lo ++ (s.messages.items.take position).take (position - b)).length := exact_if fun hfrom => by
    have hnil : lo = [] := by
      refine List.eq_nil_iff_forall_not_mem.mpr fun a ha => ?_
      have hpos := (hserver a (by rw [hitems]; simp [ha])).1
      have hneg := hlo a ha
      omega
    rw [hnil, List.nil_append, List.length_take, hlengthTake, Nat.min_eq_left (by omega)]
  have hexactAfter : Exact (if s.range.till = serverMaxMsgId then
      some ((s.messages.size - position - e : Nat) : Int) else none)
      ((s.messages.items.drop position).drop e ++ hi).length := exact_if fun htill => by
    have hnil : hi = [] := by
      refine List.eq_nil_iff_forall_not_mem.mpr fun a ha => ?_
      have hle := (hserver a (by rw [hitems]; simp [ha])).2
      have hgt := hhi a ha
      omega
    rw [hnil, List.append_nil, List.length_drop, hlengthDrop]
  have htotal : t.size = (lo ++ (s.messages.items.take position).take (position - b)).length +
      (l.queryFromSlice query s).messageIds.size +
        ((s.messages.items.drop position).drop e ++ hi).length := by
    show t.items.length = _
    rw [hwindow, List.length_append, List.length_append]
    rfl
  obtain ⟨hskippedBefore, hskippedAfter⟩ :=
    fillSkipped_exact htotal hf.count hexactBefore hexactAfter
  rw [← hskipped] at hskippedBefore hskippedAfter
  have hless : ∀ a ∈ (s.messages.items.take position).drop (position - b), a < query.aroundId :=
    fun a ha => hlt a (List.mem_of_mem_drop ha)
  have hnotLess : ∀ a ∈ (s.messages.items.drop position).take e, query.aroundId ≤ a :=
    fun a ha => hge a (List.mem_of_mem_take ha)
  have hcountBefore : (l.queryFromSlice query s).messageIds.items.countP (· < query.aroundId) = b := by
    rw [hanswer, List.countP_append, List.countP_eq_length.mpr (by simpa using hless),
      List.countP_eq_zero.mpr (by simpa using hnotLess), hpart]
    rfl
  have hcountAfter : (l.queryFromSlice query s).messageIds.items.countP (query.aroundId ≤ ·) = e := by
    rw [hanswer, List.countP_append, List.countP_eq_zero.mpr (by simpa using hless),
      List.countP_eq_length.mpr (by simpa using hnotLess), hpart', Nat.zero_add]
  refine ⟨⟨_, _, hwindow, ?_, ?_, hskippedBefore, hskippedAfter, ?_⟩, ?_, ?_⟩
  · intro a ha
    rcases List.mem_append.mp ha with ha | ha
    · exact (hlo a ha).trans_le haround.1
    · exact hlt a (List.mem_of_mem_take ha)
  · intro a ha
    rcases List.mem_append.mp ha with ha | ha
    · exact hge a (List.mem_of_mem_drop ha)
    · exact haround.2.trans (hhi a ha).le
  · rw [hcount]
    exact hf.count
  · rw [hcountBefore]
    refine hmanyBefore.imp_right fun ⟨hfew, hall⟩ => ⟨hfew, fun id hid hless => ?_⟩
    have hmem : id ∈ s.messages.items.take position ++ s.messages.items.drop position := by
      rwa [List.take_append_drop]
    rcases List.mem_append.mp hmem with hmem | hmem
    · rw [OrderedSet.mem_def, hanswer, hall, Nat.sub_self]
      exact List.mem_append_left _ hmem
    · exact absurd (hge id hmem) (not_le.mpr hless)
  · rw [hcountAfter]
    refine hmanyAfter.imp_right fun ⟨hfew, hall⟩ => ⟨hfew, fun id hid hle' => ?_⟩
    have hmem : id ∈ s.messages.items.take position ++ s.messages.items.drop position := by
      rwa [List.take_append_drop]
    rcases List.mem_append.mp hmem with hmem | hmem
    · exact absurd (hlt id hmem) (not_lt.mpr hle')
    · rw [OrderedSet.mem_def, hanswer, List.take_of_length_le (hlengthDrop.trans hall.symm).le]
      exact List.mem_append_right _ hmem

/-- The slice that is looked up is one that has the id, and any slice that has the id is found. -/
theorem Ordered.found_iff (h : Ordered slices) :
    (slices[(slices.takeWhile fun s => s.range.till < id).length]?.filter (·.range.from ≤ id)) = some s ↔
      s ∈ slices ∧ s.range.has id := by
  obtain ⟨before, united, after, rfl, hbefore, hunited, hafter⟩ := h.split ⟨id, id⟩
  have htake : ((before ++ united ++ after).takeWhile fun s => s.range.till < id).length =
      before.length := by
    rw [List.append_assoc]
    refine length_takeWhile (fun b hb => decide_eq_true (hbefore b hb)) fun u hu => ?_
    have hle := (h.contained u (by simp only [List.mem_append] at hu ⊢; tauto)).1
    rcases List.mem_append.mp hu with hu | hu
    · exact decide_eq_false (not_lt.mpr (hunited u hu).1)
    · exact decide_eq_false (not_lt.mpr ((hafter u hu).le.trans hle))
  rw [htake, List.append_assoc, List.getElem?_append_right le_rfl, Nat.sub_self,
    ← List.append_assoc, Option.filter_eq_some_iff, decide_eq_true_eq, ← List.head?_eq_getElem?]
  cases united with
  | nil =>
    refine iff_of_false ?_ ?_
    · rintro ⟨hs, hle⟩
      exact absurd (hafter s (List.mem_of_mem_head? hs)) (not_lt.mpr hle)
    · rintro ⟨hs, hfrom, htill⟩
      rw [List.append_nil] at hs
      rcases List.mem_append.mp hs with hs | hs
      · exact absurd (hbefore s hs) (not_lt.mpr htill)
      · exact absurd (hafter s hs) (not_lt.mpr hfrom)
  | cons x others =>
    rw [List.cons_append, List.head?_cons]
    constructor
    · rintro ⟨heq, hle⟩
      cases heq
      exact ⟨by simp, hle, (hunited s List.mem_cons_self).1⟩
    · rintro ⟨hs, hfrom, htill⟩
      refine ⟨?_, hfrom⟩
      rw [List.mem_append, List.mem_append, List.mem_cons] at hs
      rcases hs with (hs | hs | hs) | hs
      · exact absurd (hbefore s hs) (not_lt.mpr htill)
      · rw [hs]
      · have hapart := (ordered_append_iff.mp (ordered_append_iff.mp h).1).2.1.apart
        have hlt := (List.pairwise_cons.mp hapart).1 s hs
        exact absurd (hlt.trans_le hfrom) (not_lt.mpr (hunited x List.mem_cons_self).1)
      · exact absurd (hafter s hs) (not_lt.mpr hfrom)

theorem query_of_has (h : Ordered l.slices) {query : SparseIdsListQuery} (haround : query.aroundId ≠ 0)
    (hs : s ∈ l.slices) (hhas : s.range.has query.aroundId) :
    l.query query = some (l.queryFromSlice query s) := by
  have hfound := h.found_iff.mpr ⟨hs, hhas⟩
  simp only [SparseIdsList.query, if_pos haround, hfound]

/-- Where there is no slice around the id, the count is all that is known. -/
theorem Ordered.query_cases (h : Ordered l.slices) {query : SparseIdsListQuery}
    {result : SparseIdsListResult} (hresult : l.query query = some result) :
    (∃ s ∈ l.slices, s.range.has query.aroundId ∧ result = l.queryFromSlice query s) ∨
      result = { count := l.count } := by
  by_cases hslice : query.aroundId ≠ 0 ∧ ∃ s ∈ l.slices, s.range.has query.aroundId
  · obtain ⟨haround, s, hs, hhas⟩ := hslice
    rw [query_of_has h haround hs hhas] at hresult
    exact .inl ⟨s, hs, hhas, (Option.some.inj hresult).symm⟩
  · have hnone : (if query.aroundId ≠ 0 then
        l.slices[(l.slices.takeWhile fun s => s.range.till < query.aroundId).length]?
        else none).filter (·.range.from ≤ query.aroundId) = none := by
      rw [Option.eq_none_iff_forall_ne_some]
      intro s hs
      by_cases haround : query.aroundId ≠ 0
      · rw [if_pos haround] at hs
        obtain ⟨hmem, hhas⟩ := h.found_iff.mp hs
        exact hslice ⟨haround, s, hmem, hhas⟩
      · rw [if_neg haround] at hs
        cases hs
    have hcount : l.query query = l.count.map fun count => { count := some count } := by
      simp only [SparseIdsList.query, hnone]
    rw [hcount] at hresult
    obtain ⟨c, hc, rfl⟩ := Option.map_eq_some_iff.mp hresult
    exact .inr (by rw [hc])

theorem Faithful.query (hf : Faithful l t) {query : SparseIdsListQuery} (hbefore : 0 ≤ query.limitBefore)
    (hafter : 0 ≤ query.limitAfter) {result : SparseIdsListResult} (h : l.query query = some result) :
    ∃ before after, Window t query result before after := by
  rcases hf.ordered.query_cases h with ⟨s, hs, hhas, rfl⟩ | rfl
  · exact (hf.queryFromSlice hs hhas hbefore hafter).1
  · refine ⟨_, _, ⟨(List.take_append_drop (t.lowerBound query.aroundId) t.items).symm.trans ?_,
      fun id => t.lt_of_mem_take, fun id => t.le_of_mem_drop, fun k hk => ?_, fun k hk => ?_, hf.count⟩⟩
    · rw [List.append_assoc]
      rfl
    · cases hk
    · cases hk

/-- The messages of an answer are of one slice, which is the last if only what is skipped after them
is known. -/
theorem Ordered.query_inside (h : Ordered l.slices) {query : SparseIdsListQuery}
    (hbefore : 0 ≤ query.limitBefore) (hafter : 0 ≤ query.limitAfter) {result : SparseIdsListResult}
    (hresult : l.query query = some result) (hne : result.messageIds.items ≠ []) :
    ∃ s ∈ l.slices, (∀ id ∈ result.messageIds, s.range.has id) ∧
      (result.skippedBefore = none → result.skippedAfter ≠ none → s.range.till = serverMaxMsgId) := by
  rcases h.query_cases hresult with ⟨s, hs, hhas, rfl⟩ | rfl
  · obtain ⟨b, e, htaken⟩ := @exists_taken l s query hbefore hafter
    refine ⟨s, hs, fun id hid => ?_, fun hnone hsome => ?_⟩
    · rw [htaken.messageIds, OrderedSet.mem_merge] at hid
      have hmem := hid.resolve_left List.not_mem_nil
      exact (h.contained s hs).2 id (List.mem_of_mem_take (List.mem_of_mem_drop hmem))
    · by_contra hend
      have hskipped := htaken.skipped
      rw [if_neg hend] at hskipped
      generalize l.queryFromSlice query s = answer at hnone hsome hskipped
      rw [hnone] at hskipped
      obtain ⟨after, hafter'⟩ := Option.ne_none_iff_exists'.mp hsome
      rw [hafter'] at hskipped
      by_cases hfrom : s.range.from = 0
      · rw [if_pos hfrom] at hskipped
        cases hcount : l.count with
        | none =>
          rw [hcount] at hskipped
          cases hskipped
        | some c =>
          rw [hcount] at hskipped
          cases hskipped
      · rw [if_neg hfrom] at hskipped
        cases hcount : l.count with
        | none =>
          rw [hcount] at hskipped
          cases hskipped
        | some c =>
          rw [hcount] at hskipped
          cases hskipped
  · exact absurd rfl hne

theorem query_count (h : Ordered l.slices) {query : SparseIdsListQuery} {result : SparseIdsListResult}
    (hresult : l.query query = some result) : result.count = l.count := by
  rcases h.query_cases hresult with ⟨s, -, -, rfl⟩ | rfl
  · rfl
  · rfl

/-- Whatever the client is told of a server, the slices of the list are apart and have the messages
of the server in their ranges, a known count is that of the server, and a query is answered with a
window of the messages of the server and with what is skipped on its sides. -/
theorem reached_answers (h : Reached l t) (query : SparseIdsListQuery) (hbefore : 0 ≤ query.limitBefore)
    (hafter : 0 ≤ query.limitAfter) :
    Faithful l t ∧
      (∀ result, l.query query = some result → ∃ before after, Window t query result before after) ∧
      (query.aroundId ≠ 0 → ∀ s ∈ l.slices, s.range.has query.aroundId →
        ∃ result, l.query query = some result ∧ Filled s.messages query result.messageIds) := by
  have hf := h.faithful
  refine ⟨hf, fun result hresult => hf.query hbefore hafter hresult, fun haround s hs hhas => ?_⟩
  exact ⟨_, query_of_has hf.ordered haround hs hhas, (hf.queryFromSlice hs hhas hbefore hafter).2⟩

def serverOfThree : OrderedSet Int := .ofList [3, 5, 9]

/-- The end of the list of a server with three messages. -/
def endOfThree : SparseIdsList := ({} : SparseIdsList).addSlice [5, 9] ⟨4, serverMaxMsgId⟩ (some 3)

theorem reached_endOfThree : Reached endOfThree serverOfThree := by
  have hserver : ∀ id ∈ serverOfThree, isServerMsgId id := by decide +kernel
  have hslice : Knows serverOfThree [5, 9] ⟨4, serverMaxMsgId⟩ := by
    refine ⟨by decide, le_rfl, fun id => ?_⟩
    rw [serverOfThree, OrderedSet.mem_ofList, MsgRange.has, serverMaxMsgId]
    simp only [List.mem_cons, List.not_mem_nil, or_false]
    omega
  exact .step (.start hserver) (@Told.addSlice _ _ _ _ (some 3) hslice fun c hc => by
    rw [← Option.some.inj hc]
    decide +kernel)

/-- And then a new message. -/
theorem told_twelve : endOfThree.Told serverOfThree (.addNew 12) (serverOfThree.merge [12]) :=
  .addNew (by decide) (by decide +kernel)

theorem reached_answers_three : Faithful (endOfThree.addNew 12) (serverOfThree.merge [12]) ∧
    (∀ result, (endOfThree.addNew 12).query ⟨9, 1, 1⟩ = some result →
      ∃ before after, Window (serverOfThree.merge [12]) ⟨9, 1, 1⟩ result before after) ∧
    ((9 : Int) ≠ 0 → ∀ s ∈ (endOfThree.addNew 12).slices, s.range.has 9 → ∃ result,
      (endOfThree.addNew 12).query ⟨9, 1, 1⟩ = some result ∧
        Filled s.messages ⟨9, 1, 1⟩ result.messageIds) :=
  reached_answers (.step reached_endOfThree told_twelve) ⟨9, 1, 1⟩ (by decide) (by decide)

end SparseIdsList

end TelegramClient.Storage
