import TelegramClient.Base.FlatMaps
import TelegramClient.Data.SearchPages

/-! The known parts of a list of message ids and the number of all of them
(`storage/storage_sparse_ids_list.cpp`). -/

namespace TelegramClient.Storage

open OrderedSets Data Base KeyedSequences WeakOrder

/-- A part of the list: there is no other message in the range. -/
structure SparseIdsList.Slice where
  messages : OrderedSet Int := .empty
  range : MsgRange
  deriving DecidableEq

structure SparseIdsList where
  count : Option Int := none
  slices : List SparseIdsList.Slice := []
  deriving DecidableEq

namespace SparseIdsList

namespace Slice

/-- The two ranges touch. -/
def merge (s : Slice) (moreMessages : List Int) (moreNoSkipRange : MsgRange) : Slice where
  messages := s.messages.merge moreMessages
  range := ⟨min s.range.from moreNoSkipRange.from, max s.range.till moreNoSkipRange.till⟩

def remove (s : Slice) (messageId : Int) : Slice := { s with messages := s.messages.remove messageId }

/-- To the last message, or to nothing. -/
def cutTill (s : Slice) : Slice :=
  { s with range := ⟨s.range.from, s.messages.items.getLast?.getD s.range.from⟩ }

end Slice

/-- The order of `flat_set<Slice>`. -/
def bySliceFrom : Compare Slice where
  less a b := a.range.from < b.range.from
  asymm h := by
    rw [decide_eq_true_eq] at h
    exact decide_eq_false (by omega)
  less_or_less b h := by
    simp only [decide_eq_true_eq] at *
    omega

structure AddResult where
  inslice : Int
  added : Int

def sizeAt (slices : List Slice) (i : Nat) : Int := slices[i]?.elim 0 fun s => s.messages.size

def uniteAndAdd (slices : List Slice) (uniteFrom uniteTill : Nat) (messages : List Int)
    (noSkipRange : MsgRange) : List Slice × AddResult :=
  let was := sizeAt slices uniteFrom
  let others := (slices.take uniteTill).drop (uniteFrom + 1)
  let slices := bySliceFrom.modify true slices uniteFrom (·.merge messages noSkipRange)
  let slices := others.foldl (fun slices it =>
    bySliceFrom.modify true slices uniteFrom (·.merge it.messages.items it.range)) slices
  let slices := slices.take (uniteFrom + 1) ++ slices.drop uniteTill
  let count := sizeAt slices uniteFrom
  (slices, ⟨count, count - was⟩)

def addRangeItemsAndCountNew (slices : List Slice) (messages : List Int) (noSkipRange : MsgRange) :
    List Slice × AddResult :=
  let uniteFrom := (slices.takeWhile fun s => s.range.till < noSkipRange.from).length
  let uniteTill := (slices.takeWhile fun s => s.range.from ≤ noSkipRange.till).length
  if uniteFrom < uniteTill then uniteAndAdd slices uniteFrom uniteTill messages noSkipRange
  else
    let (slices, position, _) := FlatSet.insert bySliceFrom slices ⟨.ofList messages, noSkipRange⟩
    let count := sizeAt slices position
    (slices, ⟨count, count⟩)

def wholeRange : MsgRange := ⟨0, serverMaxMsgId⟩

variable (l : SparseIdsList)

/-- What `addRange` takes for the count before it looks at the slices. -/
def counted (result : AddResult) (count : Option Int) (incrementCount : Bool) : Option Int :=
  match count with
  | some count => some count
  | none => if incrementCount && 0 < result.added then l.count.map (· + result.added) else l.count

/-- One slice has everything. -/
def wholeSize : List Slice → Option Int
  | [s] => if s.range = wholeRange then some s.messages.size else none
  | _ => none

def addRange (messages : List Int) (noSkipRange : MsgRange) (count : Option Int)
    (incrementCount : Bool) : SparseIdsList :=
  let (slices, result) := addRangeItemsAndCountNew l.slices messages noSkipRange
  { count := ((wholeSize slices).or (l.counted result count incrementCount)).map (max · result.inslice)
    slices }

def addNew (messageId : Int) : SparseIdsList :=
  l.addRange [messageId] ⟨messageId, serverMaxMsgId⟩ none true

def addExisting (messageId : Int) (noSkipRange : MsgRange) : SparseIdsList :=
  l.addRange [messageId] noSkipRange none false

def addSlice (messageIds : List Int) (noSkipRange : MsgRange) (count : Option Int) : SparseIdsList :=
  l.addRange messageIds noSkipRange count false

def removeOne (messageId : Int) : SparseIdsList :=
  let i := (l.slices.takeWhile fun s => s.range.till < messageId).length
  { count := l.count.map (· - 1)
    slices := if l.slices[i]?.any fun s => s.range.from ≤ messageId
      then bySliceFrom.modify true l.slices i (·.remove messageId) else l.slices }

def removeAll : SparseIdsList := { count := some 0, slices := [{ range := wholeRange }] }

def invalidateBottom : SparseIdsList where
  count := none
  slices := if l.slices.getLast?.any fun s => s.range.till = serverMaxMsgId
    then bySliceFrom.modify true l.slices (l.slices.length - 1) Slice.cutTill else l.slices

inductive Op where
  | addNew (messageId : Int)
  | addExisting (messageId : Int) (noSkipRange : MsgRange)
  | addSlice (messageIds : List Int) (noSkipRange : MsgRange) (count : Option Int)
  | removeOne (messageId : Int)
  | removeAll
  | invalidateBottom

def step : Op → SparseIdsList
  | .addNew messageId => l.addNew messageId
  | .addExisting messageId noSkipRange => l.addExisting messageId noSkipRange
  | .addSlice messageIds noSkipRange count => l.addSlice messageIds noSkipRange count
  | .removeOne messageId => l.removeOne messageId
  | .removeAll => removeAll
  | .invalidateBottom => l.invalidateBottom

/-- Messages come with a range that they are in. -/
def Contained (messages : List Int) (noSkipRange : MsgRange) : Prop :=
  noSkipRange.from ≤ noSkipRange.till ∧ ∀ id ∈ messages, noSkipRange.has id

def Op.Valid : Op → Prop
  | .addNew messageId => Contained [messageId] ⟨messageId, serverMaxMsgId⟩
  | .addExisting messageId noSkipRange => Contained [messageId] noSkipRange
  | .addSlice messageIds noSkipRange _ => Contained messageIds noSkipRange
  | _ => True

/-! ### The slices are apart -/

structure Ordered (slices : List Slice) : Prop where
  apart : slices.Pairwise fun a b => a.range.till < b.range.from
  contained : ∀ s ∈ slices, Contained s.messages.items s.range

/-- Messages between two parts of the slices. -/
structure Between (before after : List Slice) (messages : List Int) (range : MsgRange) : Prop where
  contained : Contained messages range
  before : ∀ b ∈ before, b.range.till < range.from
  after : ∀ a ∈ after, range.till < a.range.from

variable {l} {slices before united after tail others : List Slice} {s x y : Slice}
  {messages : List Int} {range : MsgRange} {id : Int}

theorem ordered_append_iff : Ordered (before ++ after) ↔ Ordered before ∧ Ordered after ∧
    ∀ b ∈ before, ∀ a ∈ after, b.range.till < a.range.from := by
  constructor
  · rintro ⟨hapart, hcontained⟩
    obtain ⟨hb, ha, hboth⟩ := List.pairwise_append.mp hapart
    exact ⟨⟨hb, fun s hs => hcontained s (List.mem_append_left _ hs)⟩,
      ⟨ha, fun s hs => hcontained s (List.mem_append_right _ hs)⟩, hboth⟩
  · rintro ⟨hb, ha, hboth⟩
    refine ⟨List.pairwise_append.mpr ⟨hb.apart, ha.apart, hboth⟩, fun s hs => ?_⟩
    rcases List.mem_append.mp hs with hs | hs
    · exact hb.contained s hs
    · exact ha.contained s hs

theorem ordered_middle_iff : Ordered (before ++ s :: after) ↔
    Ordered (before ++ after) ∧ Between before after s.messages.items s.range := by
  constructor
  · intro h
    obtain ⟨hb, hs, hboth⟩ := ordered_append_iff.mp h
    obtain ⟨hsa, ha⟩ := List.pairwise_cons.mp hs.apart
    have hafter : Ordered after := ⟨ha, fun t ht => hs.contained t (List.mem_cons_of_mem s ht)⟩
    refine ⟨ordered_append_iff.mpr ⟨hb, hafter, fun b hb a ha => ?_⟩, ?_⟩
    · exact hboth b hb a (List.mem_cons_of_mem s ha)
    · exact ⟨hs.contained s List.mem_cons_self, fun b hb => hboth b hb s List.mem_cons_self, hsa⟩
  · rintro ⟨h, hs⟩
    obtain ⟨hb, ha, hboth⟩ := ordered_append_iff.mp h
    have hcons : Ordered (s :: after) :=
      ⟨List.pairwise_cons.mpr ⟨hs.after, ha.apart⟩,
        List.forall_mem_cons.mpr ⟨hs.contained, ha.contained⟩⟩
    refine ordered_append_iff.mpr ⟨hb, hcons, fun b hb a ha => ?_⟩
    rcases List.mem_cons.mp ha with rfl | ha
    · exact hs.before b hb
    · exact hboth b hb a ha

theorem Ordered.between (h : Ordered (before ++ united ++ after)) :
    ∀ t ∈ united, Between before after t.messages.items t.range := by
  intro t ht
  obtain ⟨left, right, rfl⟩ := List.append_of_mem ht
  rw [List.append_assoc, List.append_assoc, List.cons_append, ← List.append_assoc] at h
  obtain ⟨-, hbetween⟩ := ordered_middle_iff.mp h
  exact ⟨hbetween.contained, fun b hb => hbetween.before b (List.mem_append_left _ hb),
    fun a ha => hbetween.after a (List.mem_append_right _ ha)⟩

theorem less_iff : bySliceFrom.less x y ↔ x.range.from < y.range.from := decide_eq_true_iff

/-- A slice that stays between its neighbours is modified in its place. -/
theorem modify_between (action : Slice → Slice)
    (hbefore : ∀ b ∈ before, b.range.from < (action x).range.from)
    (hafter : ∀ a ∈ after, (action x).range.from < a.range.from) :
    bySliceFrom.modify true (before ++ x :: after) before.length action =
      before ++ action x :: after :=
  Compare.modify_still (fun b hb => less_iff.mpr (hbefore b hb))
    fun a ha => less_iff.mpr (hafter a ha)

theorem Between.merge (hs : Between before after s.messages.items s.range)
    (hmore : Between before after messages range) :
    Between before after (s.merge messages range).messages.items (s.merge messages range).range where
  contained := by
    refine ⟨(min_le_left _ _).trans (hs.contained.1.trans (le_max_left _ _)), fun id hid => ?_⟩
    rcases OrderedSet.mem_merge.mp hid with hid | hid
    · obtain ⟨hfrom, htill⟩ := hs.contained.2 id hid
      exact ⟨(min_le_left _ _).trans hfrom, htill.trans (le_max_left _ _)⟩
    · obtain ⟨hfrom, htill⟩ := hmore.contained.2 id hid
      exact ⟨(min_le_right _ _).trans hfrom, htill.trans (le_max_right _ _)⟩
  before b hb := lt_min (hs.before b hb) (hmore.before b hb)
  after a ha := max_lt (hs.after a ha) (hmore.after a ha)

/-- The slices that a new range touches become one. -/
def mergeAll (s : Slice) (others : List Slice) : Slice :=
  others.foldl (fun s it => s.merge it.messages.items it.range) s

theorem Between.mergeAll (hs : Between before after s.messages.items s.range)
    (hothers : ∀ it ∈ others, Between before after it.messages.items it.range) :
    Between before after (mergeAll s others).messages.items (mergeAll s others).range := by
  induction others generalizing s with
  | nil => exact hs
  | cons it others ih =>
    have hmerge := hs.merge (hothers it List.mem_cons_self)
    exact ih hmerge fun other ho => hothers other (List.mem_cons_of_mem it ho)

theorem mem_mergeAll : id ∈ (mergeAll s others).messages ↔
    id ∈ s.messages ∨ ∃ it ∈ others, id ∈ it.messages := by
  induction others generalizing s with
  | nil => simp [mergeAll]
  | cons it others ih =>
    have hmem : id ∈ (s.merge it.messages.items it.range).messages ↔
        id ∈ s.messages ∨ id ∈ it.messages := OrderedSet.mem_merge
    rw [show mergeAll s (it :: others) = mergeAll (s.merge it.messages.items it.range) others from rfl,
      ih, hmem, or_assoc]
    simp

theorem foldl_modify (hx : Between before after x.messages.items x.range)
    (hb : ∀ b ∈ before, b.range.from ≤ b.range.till)
    (htail : ∀ a ∈ tail, x.range.from < a.range.from)
    (hothers : ∀ it ∈ others, Between before after it.messages.items it.range) :
    others.foldl (fun slices it =>
      bySliceFrom.modify true slices before.length (·.merge it.messages.items it.range))
        (before ++ x :: tail) = before ++ mergeAll x others :: tail := by
  induction others generalizing x with
  | nil => rfl
  | cons it others ih =>
    have hmerge := hx.merge (hothers it List.mem_cons_self)
    have hlower : ∀ a ∈ tail, (x.merge it.messages.items it.range).range.from < a.range.from :=
      fun a ha => (min_le_left _ _).trans_lt (htail a ha)
    rw [List.foldl_cons, modify_between _ (fun b hb' => (hb b hb').trans_lt (hmerge.before b hb'))
      hlower]
    exact ih hmerge hlower fun other ho => hothers other (List.mem_cons_of_mem it ho)

theorem sizeAt_middle : sizeAt (before ++ s :: after) before.length = s.messages.size := by
  rw [sizeAt, List.getElem?_append_right le_rfl, Nat.sub_self]
  rfl

theorem uniteAndAdd_eq (hslices : Ordered (before ++ x :: others ++ after))
    (hrange : Between before after messages range) :
    uniteAndAdd (before ++ x :: others ++ after) before.length (before.length + others.length + 1)
        messages range =
      (before ++ mergeAll (x.merge messages range) others :: after,
        ⟨(mergeAll (x.merge messages range) others).messages.size,
          (mergeAll (x.merge messages range) others).messages.size - x.messages.size⟩) := by
  have hlist : before ++ x :: others ++ after = before ++ x :: (others ++ after) := by
    rw [List.append_assoc, List.cons_append]
  have hothers : ((before ++ x :: others ++ after).take (before.length + others.length + 1)).drop
      (before.length + 1) = others := by
    have htake : (before ++ x :: others ++ after).take (before.length + others.length + 1) =
        before ++ x :: others := List.take_left' (by simp; omega)
    rw [htake, ← List.drop_drop, List.drop_left]
    rfl
  obtain ⟨hx, hrest⟩ := List.forall_mem_cons.mp hslices.between
  have hmerge := hx.merge hrange
  have hb : ∀ b ∈ before, b.range.from ≤ b.range.till := fun b hb =>
    (hslices.contained b (by simp [hb])).1
  have htail : ∀ a ∈ others ++ after, (x.merge messages range).range.from < a.range.from := by
    intro a ha
    rw [hlist] at hslices
    obtain ⟨-, hbetween⟩ := ordered_middle_iff.mp hslices
    exact (min_le_left _ _).trans_lt (hbetween.contained.1.trans_lt (hbetween.after a ha))
  have hfirst : bySliceFrom.modify true (before ++ x :: (others ++ after)) before.length
      (·.merge messages range) = before ++ x.merge messages range :: (others ++ after) :=
    modify_between _ (fun b hb' => (hb b hb').trans_lt (hmerge.before b hb')) htail
  have hfold := foldl_modify hmerge hb htail hrest
  have htake : (before ++ mergeAll (x.merge messages range) others :: (others ++ after)).take
      (before.length + 1) = before ++ [mergeAll (x.merge messages range) others] := by
    rw [List.append_cons, List.take_left' (by simp)]
  have hdrop : (before ++ mergeAll (x.merge messages range) others :: (others ++ after)).drop
      (before.length + others.length + 1) = after := by
    rw [List.append_cons, ← List.append_assoc, List.drop_left' (by simp; omega)]
  rw [uniteAndAdd, hothers, hlist, hfirst, hfold, htake, hdrop, sizeAt_middle, List.append_assoc,
    List.singleton_append, sizeAt_middle]

/-- The slices around a range, and those that touch it. -/
theorem Ordered.split (h : Ordered slices) (range : MsgRange) :
    ∃ before united after, slices = before ++ united ++ after ∧
      (∀ b ∈ before, b.range.till < range.from) ∧
      (∀ s ∈ united, range.from ≤ s.range.till ∧ s.range.from ≤ range.till) ∧
      (∀ a ∈ after, range.till < a.range.from) := by
  induction slices with
  | nil => exact ⟨[], [], [], rfl, by simp, by simp, by simp⟩
  | cons s slices ih =>
    obtain ⟨hs, htail⟩ := List.pairwise_cons.mp h.apart
    have hcontained := List.forall_mem_cons.mp h.contained
    obtain ⟨before, united, after, rfl, hbefore, hunited, hafter⟩ := ih ⟨htail, hcontained.2⟩
    by_cases hless : s.range.till < range.from
    · exact ⟨s :: before, united, after, rfl, List.forall_mem_cons.mpr ⟨hless, hbefore⟩, hunited,
        hafter⟩
    have hnil : before = [] := by
      cases before with
      | nil => rfl
      | cons b before =>
        have hsb := hs b (by simp)
        have hbr := hbefore b List.mem_cons_self
        have hb := (hcontained.2 b (by simp)).1
        omega
    subst hnil
    by_cases hmore : range.till < s.range.from
    · have hnil : united = [] := by
        cases united with
        | nil => rfl
        | cons u united =>
          have hsu := hs u (by simp)
          have hu := (hunited u List.mem_cons_self).2
          have hs' := hcontained.1.1
          omega
      subst hnil
      exact ⟨[], [], s :: after, rfl, by simp, by simp, List.forall_mem_cons.mpr ⟨hmore, hafter⟩⟩
    · exact ⟨[], s :: united, after, rfl, by simp,
        List.forall_mem_cons.mpr ⟨⟨by omega, by omega⟩, hunited⟩, hafter⟩

def Slice.Touches (s : Slice) (range : MsgRange) : Prop :=
  range.from ≤ s.range.till ∧ s.range.from ≤ range.till

instance (s : Slice) (range : MsgRange) : Decidable (s.Touches range) :=
  inferInstanceAs (Decidable (_ ∧ _))

/-- What adding messages with their range makes of the slices: those that the range touches are
one slice, which has the messages too. -/
structure Added (slices : List Slice) (messages : List Int) (range : MsgRange)
    (result : List Slice × AddResult) (before united after : List Slice) (s : Slice) : Prop where
  split : slices = before ++ united ++ after
  touches : ∀ t ∈ united, t.Touches range
  apart : ∀ t ∈ before ++ after, ¬t.Touches range
  slices : result.1 = before ++ s :: after
  inslice : result.2.inslice = s.messages.size
  ordered : Ordered (before ++ s :: after)
  mem : ∀ id, id ∈ s.messages ↔ id ∈ messages ∨ ∃ t ∈ united, id ∈ t.messages

theorem length_takeWhile {p : Slice → Bool} (hbefore : ∀ s ∈ before, p s)
    (hafter : ∀ s ∈ after, p s = false) :
    ((before ++ after).takeWhile p).length = before.length := by
  have hnil : after.takeWhile p = [] := by
    cases after with
    | nil => rfl
    | cons s after => exact List.takeWhile_cons_of_neg (by simp [hafter s List.mem_cons_self])
  rw [List.takeWhile_append_of_pos hbefore, hnil, List.append_nil]

theorem insert_between (hslices : Ordered (before ++ after))
    (hs : Between before after s.messages.items s.range) :
    FlatSet.insert bySliceFrom (before ++ after) s = (before ++ s :: after, before.length, true) := by
  refine insertWith_absent (fun b hb => ?_) fun a ha => ?_
  · have hle := (hslices.contained b (List.mem_append_left _ hb)).1
    exact less_iff.mpr (hle.trans_lt (hs.before b hb))
  · exact less_iff.mpr (hs.contained.1.trans_lt (hs.after a ha))

/-- The slice that a range makes of those that it touches. -/
def unite (united : List Slice) (messages : List Int) (range : MsgRange) : Slice :=
  match united with
  | [] => ⟨.ofList messages, range⟩
  | x :: others => mergeAll (x.merge messages range) others

theorem mem_unite : id ∈ (unite united messages range).messages ↔
    id ∈ messages ∨ ∃ t ∈ united, id ∈ t.messages := by
  cases united with
  | nil => simp [unite]
  | cons x others =>
    have hmem : id ∈ (x.merge messages range).messages ↔ id ∈ x.messages ∨ id ∈ messages :=
      OrderedSet.mem_merge
    rw [unite, mem_mergeAll, hmem]
    simp only [List.mem_cons, exists_eq_or_imp]
    tauto

theorem Ordered.unite (h : Ordered (before ++ united ++ after)) (hm : Contained messages range)
    (hbefore : ∀ b ∈ before, b.range.till < range.from)
    (hafter : ∀ a ∈ after, range.till < a.range.from) :
    Ordered (before ++ unite united messages range :: after) := by
  have hothers : Ordered (before ++ after) :=
    ⟨h.apart.sublist ((List.sublist_append_left before united).append_right after),
      fun t ht => h.contained t (by simp only [List.mem_append] at ht ⊢; tauto)⟩
  refine ordered_middle_iff.mpr ⟨hothers, ?_⟩
  have hrange : Between before after messages range := ⟨hm, hbefore, hafter⟩
  cases united with
  | nil => exact ⟨⟨hm.1, fun id hid => hm.2 id (OrderedSet.mem_ofList.mp hid)⟩, hbefore, hafter⟩
  | cons x others =>
    obtain ⟨hx, hrest⟩ := List.forall_mem_cons.mp h.between
    exact (hx.merge hrange).mergeAll hrest

/-- The search finds the slices that a range touches. -/
theorem Ordered.length_before (h : Ordered (before ++ united ++ after)) (hle : range.from ≤ range.till)
    (hbefore : ∀ b ∈ before, b.range.till < range.from)
    (hunited : ∀ t ∈ united, t.Touches range) (hafter : ∀ a ∈ after, range.till < a.range.from) :
    ((before ++ united ++ after).takeWhile fun s => s.range.till < range.from).length = before.length ∧
      ((before ++ united ++ after).takeWhile fun s => s.range.from ≤ range.till).length =
        before.length + united.length := by
  have hslices : ∀ t ∈ before ++ united ++ after, t.range.from ≤ t.range.till :=
    fun t ht => (h.contained t ht).1
  simp only [List.mem_append] at hslices
  constructor
  · rw [List.append_assoc]
    refine length_takeWhile (fun b hb => decide_eq_true (hbefore b hb)) fun t ht => ?_
    rcases List.mem_append.mp ht with ht | ht
    · exact decide_eq_false (not_lt.mpr (hunited t ht).1)
    · have hta := hslices t (Or.inr ht)
      exact decide_eq_false (not_lt.mpr (hle.trans ((hafter t ht).le.trans hta)))
  · rw [← List.length_append]
    refine length_takeWhile (fun t ht => decide_eq_true ?_) fun a ha =>
      decide_eq_false (not_le.mpr (hafter a ha))
    rcases List.mem_append.mp ht with ht | ht
    · exact (hslices t (Or.inl (Or.inl ht))).trans ((hbefore t ht).le.trans hle)
    · exact (hunited t ht).2

theorem Ordered.addRangeItems_eq (h : Ordered (before ++ united ++ after))
    (hm : Contained messages range) (hbefore : ∀ b ∈ before, b.range.till < range.from)
    (hunited : ∀ t ∈ united, t.Touches range) (hafter : ∀ a ∈ after, range.till < a.range.from) :
    addRangeItemsAndCountNew (before ++ united ++ after) messages range =
      (before ++ SparseIdsList.unite united messages range :: after,
        ⟨(SparseIdsList.unite united messages range).messages.size,
          (SparseIdsList.unite united messages range).messages.size - sizeAt united 0⟩) := by
  obtain ⟨hfrom, htill⟩ := h.length_before hm.1 hbefore hunited hafter
  rw [addRangeItemsAndCountNew, hfrom, htill]
  cases united with
  | nil =>
    rw [List.append_nil] at h ⊢
    have hs : Between before after (OrderedSet.ofList messages).items range :=
      ⟨⟨hm.1, fun id hid => hm.2 id (OrderedSet.mem_ofList.mp hid)⟩, hbefore, hafter⟩
    have hinsert := insert_between (s := ⟨.ofList messages, range⟩) h hs
    rw [List.length_nil, Nat.add_zero, if_neg (lt_irrefl _), hinsert]
    simp only [sizeAt_middle]
    rw [SparseIdsList.unite, sizeAt, List.getElem?_nil, Option.elim_none, Int.sub_zero]
  | cons x others =>
    have hunite := uniteAndAdd_eq h ⟨hm, hbefore, hafter⟩
    rw [List.length_cons, ← Nat.add_assoc, if_pos (by omega), hunite]
    rfl

theorem Ordered.add (h : Ordered slices) (hm : Contained messages range) :
    ∃ before united after s, Added slices messages range
      (addRangeItemsAndCountNew slices messages range) before united after s := by
  obtain ⟨before, united, after, rfl, hbefore, hunited, hafter⟩ := h.split range
  have hapart : ∀ t ∈ before ++ after, ¬t.Touches range := by
    rintro t ht ⟨hfrom, htill⟩
    rcases List.mem_append.mp ht with ht | ht
    · exact absurd (hbefore t ht) (not_lt.mpr hfrom)
    · exact absurd (hafter t ht) (not_lt.mpr htill)
  rw [h.addRangeItems_eq hm hbefore hunited hafter]
  exact ⟨before, united, after, _, rfl, hunited, hapart, rfl, rfl, h.unite hm hbefore hafter,
    fun id => mem_unite⟩

/-! ### Removing -/

theorem remove_of_not_mem (h : id ∉ s.messages) : s.remove id = s := by
  have hmessages : s.messages.remove id = s.messages := OrderedSet.ext_mem fun a => by
    rw [OrderedSet.mem_remove, and_iff_left_iff_imp]
    rintro ha rfl
    exact h ha
  rw [Slice.remove, hmessages]

theorem map_remove (h : ∀ t ∈ slices, id ∉ t.messages) : slices.map (·.remove id) = slices :=
  (List.map_congr_left fun t ht => remove_of_not_mem (h t ht)).trans (List.map_id slices)

/-- The search finds the only slice that can have the message. -/
theorem Ordered.removeOne_slices (h : Ordered l.slices) :
    (l.removeOne id).slices = l.slices.map (·.remove id) := by
  show (if _ then _ else _) = _
  generalize l.slices = slices at h ⊢
  obtain ⟨before, united, after, rfl, hbefore, hunited, hafter⟩ := h.split ⟨id, id⟩
  rw [List.append_assoc] at h ⊢
  obtain ⟨hb, hrest, -⟩ := ordered_append_iff.mp h
  have hi : ((before ++ (united ++ after)).takeWhile fun s => s.range.till < id).length =
      before.length := by
    refine length_takeWhile (fun b hb' => decide_eq_true (hbefore b hb')) fun t ht => ?_
    have hle := (hrest.contained t ht).1
    rcases List.mem_append.mp ht with ht | ht
    · exact decide_eq_false (not_lt.mpr (hunited t ht).1)
    · exact decide_eq_false (not_lt.mpr ((hafter t ht).le.trans hle))
  have hbefore' : ∀ b ∈ before, id ∉ b.messages := fun b hb' hmem =>
    absurd ((hb.contained b hb').2 id hmem).2 (not_le.mpr (hbefore b hb'))
  rw [hi, List.getElem?_append_right le_rfl, Nat.sub_self, List.map_append, map_remove hbefore']
  cases united with
  | nil =>
    have hafter' : ∀ a ∈ after, id ∉ a.messages := fun a ha hmem =>
      absurd ((hrest.contained a ha).2 id hmem).1 (not_le.mpr (hafter a ha))
    rw [List.nil_append, map_remove hafter', if_neg]
    cases after with
    | nil => exact Bool.false_ne_true
    | cons a after => simpa using hafter a List.mem_cons_self
  | cons x others =>
    obtain ⟨hid, hxid⟩ := hunited x List.mem_cons_self
    obtain ⟨hapart, -⟩ := List.pairwise_cons.mp hrest.apart
    have hothers : ∀ t ∈ others ++ after, id ∉ t.messages := fun t ht hmem =>
      absurd ((hrest.contained t (List.mem_cons_of_mem x ht)).2 id hmem).1
        (not_le.mpr (hid.trans_lt (hapart t ht)))
    obtain ⟨-, hx⟩ := ordered_middle_iff.mp h
    have hany : Option.any (fun s : Slice => decide (s.range.from ≤ id))
        (x :: (others ++ after))[0]? = true := decide_eq_true hxid
    rw [List.cons_append, List.map_cons, map_remove hothers, if_pos hany]
    refine modify_between _ (fun b hb' => ?_) fun t ht => ?_
    · exact (hb.contained b hb').1.trans_lt (hx.before b hb')
    · exact hx.contained.1.trans_lt (hx.after t ht)

theorem Ordered.map {f : Slice → Slice} (h : Ordered slices)
    (hf : ∀ s ∈ slices, (f s).range.from = s.range.from ∧ (f s).range.till ≤ s.range.till ∧
      Contained (f s).messages.items (f s).range) : Ordered (slices.map f) := by
  constructor
  · refine List.pairwise_map.mpr (h.apart.imp_of_mem fun hs ht hlt => ?_)
    rw [(hf _ ht).1]
    exact (hf _ hs).2.1.trans_lt hlt
  · intro t ht
    obtain ⟨s, hs, rfl⟩ := List.mem_map.mp ht
    exact (hf s hs).2.2

theorem Ordered.removeOne (h : Ordered l.slices) (id : Int) : Ordered (l.removeOne id).slices := by
  rw [h.removeOne_slices]
  refine h.map fun s hs => ⟨rfl, le_rfl, (h.contained s hs).1, fun a ha => ?_⟩
  exact (h.contained s hs).2 a (OrderedSet.mem_remove.mp ha).1

theorem contained_cutTill (h : Contained s.messages.items s.range) :
    Contained s.cutTill.messages.items s.cutTill.range ∧ s.cutTill.range.till ≤ s.range.till := by
  show (s.range.from ≤ s.messages.items.getLast?.getD s.range.from ∧
    ∀ id ∈ s.messages.items, s.range.from ≤ id ∧
      id ≤ s.messages.items.getLast?.getD s.range.from) ∧
    s.messages.items.getLast?.getD s.range.from ≤ s.range.till
  cases hlast : s.messages.items.getLast? with
  | none =>
    rw [List.getLast?_eq_none_iff.mp hlast]
    exact ⟨⟨le_rfl, by simp⟩, h.1⟩
  | some last =>
    obtain ⟨hfrom, htill⟩ := h.2 last (List.mem_of_getLast? hlast)
    exact ⟨⟨hfrom, fun id hid => ⟨(h.2 id hid).1, OrderedSet.le_getLast? hlast hid⟩⟩, htill⟩

theorem Ordered.invalidateBottom (h : Ordered l.slices) : Ordered l.invalidateBottom.slices := by
  show Ordered (if _ then _ else _)
  generalize l.slices = slices at h ⊢
  split
  · rcases List.eq_nil_or_concat' slices with rfl | ⟨before, s, rfl⟩
    · exact h
    obtain ⟨hb, hs⟩ := ordered_middle_iff.mp h
    obtain ⟨hcut, htill⟩ := contained_cutTill hs.contained
    have hlen : (before ++ [s]).length - 1 = before.length := by simp
    rw [hlen, modify_between]
    · refine ordered_middle_iff.mpr ⟨hb, hcut, hs.before, by simp⟩
    · intro b hb'
      exact (hb.contained b (by simp [hb'])).1.trans_lt (hs.before b hb')
    · simp
  · exact h

theorem ordered_removeAll : Ordered SparseIdsList.removeAll.slices where
  apart := List.pairwise_singleton _ _
  contained s hs := by
    rw [List.mem_singleton.mp hs]
    exact ⟨by decide, by simp [OrderedSet.empty]⟩

/-- Every operation leaves the slices apart. -/
theorem Ordered.step (h : Ordered l.slices) {op : Op} (hop : op.Valid) :
    Ordered (l.step op).slices := by
  have hadd : ∀ {messages range} (count : Option Int) (incrementCount : Bool),
      Contained messages range →
        Ordered (l.addRange messages range count incrementCount).slices := by
    intro messages range count incrementCount hm
    obtain ⟨before, united, after, s, hadded⟩ := h.add hm
    show Ordered (addRangeItemsAndCountNew l.slices messages range).1
    rw [hadded.slices]
    exact hadded.ordered
  cases op with
  | addNew messageId => exact hadd _ _ hop
  | addExisting messageId noSkipRange => exact hadd _ _ hop
  | addSlice messageIds noSkipRange count => exact hadd _ _ hop
  | removeOne messageId => exact h.removeOne messageId
  | removeAll => exact ordered_removeAll
  | invalidateBottom => exact h.invalidateBottom

/-! ### The count -/

/-- A known count is not negative, is not below the size of a slice, and is the size of a slice
that has everything. -/
def Sane (l : SparseIdsList) : Prop :=
  ∀ c, l.count = some c → 0 ≤ c ∧ (∀ s ∈ l.slices, (s.messages.size : Int) ≤ c) ∧
    ∀ s, l.slices = [s] → s.range = wholeRange → c = s.messages.size

/-- How many messages there are in the slices that a range touches, with new ones. -/
def unitedSize (slices : List Slice) (messages : List Int) (range : MsgRange) : Nat :=
  (OrderedSet.ofList (messages ++
    (slices.filter (·.Touches range)).flatMap fun s => s.messages.items)).size

/-- A count that comes with a slice is not below the other slices. A message that is removed is in
every slice that has as many messages as are counted, and something is counted. -/
def Safe (l : SparseIdsList) : Op → Prop
  | .addSlice messageIds noSkipRange (some count) => ∀ s ∈ l.slices, ¬s.Touches noSkipRange →
    (s.messages.size : Int) ≤ max count (unitedSize l.slices messageIds noSkipRange)
  | .removeOne messageId => ∀ c, l.count = some c →
    0 < c ∧ ∀ s ∈ l.slices, (s.messages.size : Int) < c ∨ messageId ∈ s.messages
  | _ => True

variable {result : List Slice × AddResult} {count : Option Int} {incrementCount : Bool} {c k : Int}

theorem wholeSize_eq_some_iff : wholeSize slices = some c ↔
    ∃ s, slices = [s] ∧ s.range = wholeRange ∧ c = s.messages.size := by
  match slices with
  | [] => simp [wholeSize]
  | [s] =>
    simp only [wholeSize, List.cons.injEq, and_true, exists_eq_left']
    split
    · next h => simp [h, eq_comm]
    · next h => simp [h]
  | s :: t :: rest => simp [wholeSize]

theorem Added.mem_united_iff (h : Added slices messages range result before united after s) {t : Slice} :
    t ∈ united ↔ t ∈ slices ∧ t.Touches range := by
  constructor
  · intro ht
    rw [h.split]
    exact ⟨List.mem_append_left _ (List.mem_append_right _ ht), h.touches t ht⟩
  · rintro ⟨ht, htouches⟩
    rw [h.split, List.mem_append, List.mem_append] at ht
    rcases ht with (ht | ht) | ht
    · exact absurd htouches (h.apart t (List.mem_append_left _ ht))
    · exact ht
    · exact absurd htouches (h.apart t (List.mem_append_right _ ht))

theorem Added.unitedSize_eq (h : Added slices messages range result before united after s) :
    unitedSize slices messages range = s.messages.size := by
  refine congrArg OrderedSet.size (OrderedSet.ext_mem fun a => ?_)
  rw [OrderedSet.mem_ofList, List.mem_append, List.mem_flatMap, h.mem]
  refine or_congr_right (exists_congr fun t => ?_)
  rw [List.mem_filter, h.mem_united_iff, decide_eq_true_iff]
  rfl

theorem Added.forall_apart_iff (h : Added slices messages range result before united after s)
    {P : Slice → Prop} :
    (∀ t ∈ slices, ¬t.Touches range → P t) ↔ ∀ t ∈ before ++ after, P t := by
  constructor
  · intro hall t ht
    refine hall t ?_ (h.apart t ht)
    rw [h.split]
    rcases List.mem_append.mp ht with ht | ht
    · exact List.mem_append_left _ (List.mem_append_left _ ht)
    · exact List.mem_append_right _ ht
  · intro hall t ht htouches
    rw [h.split, List.mem_append, List.mem_append] at ht
    rcases ht with (ht | ht) | ht
    · exact hall t (List.mem_append_left _ ht)
    · exact absurd (h.touches t ht) htouches
    · exact hall t (List.mem_append_right _ ht)

theorem sane_addRange_iff (h : Ordered l.slices) (hm : Contained messages range) :
    Sane (l.addRange messages range count incrementCount) ↔
      ∀ k, l.counted (addRangeItemsAndCountNew l.slices messages range).2 count incrementCount = some k →
        ∀ t ∈ l.slices, ¬t.Touches range →
          (t.messages.size : Int) ≤ max k (unitedSize l.slices messages range) := by
  obtain ⟨before, united, after, s, hadded⟩ := h.add hm
  have hcount : (l.addRange messages range count incrementCount).count =
      ((wholeSize (before ++ s :: after)).or (l.counted
        (addRangeItemsAndCountNew l.slices messages range).2 count incrementCount)).map
          (max · (s.messages.size : Int)) := by
    rw [← hadded.slices, ← hadded.inslice]
    rfl
  have hslices : (l.addRange messages range count incrementCount).slices = before ++ s :: after :=
    hadded.slices
  rw [hadded.unitedSize_eq]
  simp only [hadded.forall_apart_iff]
  rw [Sane, hcount, hslices]
  generalize l.counted _ count incrementCount = known
  cases hwhole : wholeSize (before ++ s :: after) with
  | some n =>
    -- there is no other slice
    obtain ⟨t, heq, hrange, rfl⟩ := wholeSize_eq_some_iff.mp hwhole
    cases before with
    | nil =>
      obtain ⟨rfl, rfl⟩ := List.cons.inj heq
      refine iff_of_true (fun c hc => ?_) (by simp)
      obtain rfl : (s.messages.size : Int) = c := by simpa using hc
      refine ⟨Int.natCast_nonneg _, fun t ht => ?_, fun t hcons _ => ?_⟩
      · rw [List.mem_singleton.mp ht]
      · obtain ⟨rfl, -⟩ := List.cons.inj hcons
        rfl
    | cons b before => simp at heq
  | none =>
    rw [Option.none_or]
    constructor
    · intro hsane k hk t ht
      refine (hsane _ (by rw [hk]; rfl)).2.1 t ?_
      rcases List.mem_append.mp ht with ht | ht
      · exact List.mem_append_left _ ht
      · exact List.mem_append_right _ (List.mem_cons_of_mem s ht)
    · intro hall c hc
      obtain ⟨k, hk, rfl⟩ := Option.map_eq_some_iff.mp hc
      refine ⟨le_max_of_le_right (Int.natCast_nonneg _), fun t ht => ?_, fun t heq hrange => ?_⟩
      · rcases List.mem_append.mp ht with ht | ht
        · exact hall k hk t (List.mem_append_left _ ht)
        rcases List.mem_cons.mp ht with rfl | ht
        · exact le_max_right _ _
        · exact hall k hk t (List.mem_append_right _ ht)
      · rw [wholeSize_eq_some_iff.mpr ⟨t, heq, hrange, rfl⟩] at hwhole
        cases hwhole

theorem exists_le_of_counted {added : AddResult} (hk : l.counted added none incrementCount = some k) :
    ∃ c, l.count = some c ∧ c ≤ k := by
  simp only [counted] at hk
  split at hk
  · next hadded =>
    obtain ⟨c, hc, rfl⟩ := Option.map_eq_some_iff.mp hk
    have hpos : 0 < added.added := by simpa using (Bool.and_eq_true_iff.mp hadded).2
    exact ⟨c, hc, by omega⟩
  · exact ⟨k, hk, le_rfl⟩

theorem Sane.addRange (hs : Sane l) (h : Ordered l.slices) (hm : Contained messages range) :
    Sane (l.addRange messages range none incrementCount) := by
  refine (sane_addRange_iff h hm).mpr fun k hk t ht _ => ?_
  obtain ⟨c, hc, hle⟩ := exists_le_of_counted hk
  exact le_max_of_le_left (((hs c hc).2.1 t ht).trans hle)

theorem size_remove_lt_iff : ((s.remove id).messages.size : Int) < c ↔
    (s.messages.size : Int) < c ∨ id ∈ s.messages ∧ (s.messages.size : Int) ≤ c := by
  by_cases hmem : id ∈ s.messages
  · have hsize := OrderedSet.size_remove hmem
    have hremove : (s.remove id).messages.size + 1 = s.messages.size := hsize
    simp only [hmem, true_and]
    omega
  · rw [remove_of_not_mem hmem]
    simp [hmem]

theorem Sane.removeOne_iff (hs : Sane l) (h : Ordered l.slices) (id : Int) :
    Sane (l.removeOne id) ↔ l.Safe (.removeOne id) := by
  rw [Sane, h.removeOne_slices]
  constructor
  · intro hsane c hc
    obtain ⟨hpos, hsizes, -⟩ := hsane (c - 1) (by rw [removeOne, hc]; rfl)
    refine ⟨by omega, fun s hmem => ?_⟩
    have hsize := hsizes _ (List.mem_map_of_mem hmem)
    rcases size_remove_lt_iff.mp (Int.lt_of_le_sub_one hsize) with hlt | ⟨hid, -⟩
    · exact Or.inl hlt
    · exact Or.inr hid
  · intro hsafe c' hc'
    obtain ⟨c, hc, rfl⟩ := Option.map_eq_some_iff.mp hc'
    obtain ⟨hpos, hsizes⟩ := hsafe c hc
    obtain ⟨-, hle, hwhole⟩ := hs c hc
    have hlt : ∀ s ∈ l.slices, ((s.remove id).messages.size : Int) < c := by
      intro s hmem
      refine size_remove_lt_iff.mpr ((hsizes s hmem).imp_right fun hid => ⟨hid, hle s hmem⟩)
    refine ⟨by omega, fun t ht => ?_, fun t heq hrange => ?_⟩
    · obtain ⟨s, hmem, rfl⟩ := List.mem_map.mp ht
      exact Int.le_sub_one_of_lt (hlt s hmem)
    · obtain ⟨s, hslices, rfl⟩ := List.map_eq_singleton_iff.mp heq
      have hmem : s ∈ l.slices := by
        rw [hslices]
        exact List.mem_singleton_self s
      have hcount := hwhole s hslices hrange
      have hid : id ∈ s.messages := (hsizes s hmem).resolve_left (by omega)
      have hsize : (s.remove id).messages.size + 1 = s.messages.size := OrderedSet.size_remove hid
      omega

/-- The count stays sane through an operation exactly when the operation is safe. -/
theorem Sane.step_iff (hs : Sane l) (h : Ordered l.slices) {op : Op} (hop : op.Valid) :
    Sane (l.step op) ↔ l.Safe op := by
  cases op with
  | addNew messageId => exact iff_of_true (hs.addRange h hop) trivial
  | addExisting messageId noSkipRange => exact iff_of_true (hs.addRange h hop) trivial
  | addSlice messageIds noSkipRange count =>
    cases count with
    | none => exact iff_of_true (hs.addRange h hop) trivial
    | some count =>
      refine (sane_addRange_iff h hop).trans ⟨fun hall => hall count rfl, fun hall k hk => ?_⟩
      cases hk
      exact hall
  | removeOne messageId => exact hs.removeOne_iff h messageId
  | removeAll =>
    refine iff_of_true (fun c hc => ?_) trivial
    cases hc
    refine ⟨le_rfl, fun s hmem => ?_, fun s heq _ => ?_⟩
    · rw [List.mem_singleton.mp hmem]
      exact le_rfl
    · cases heq
      rfl
  | invalidateBottom =>
    refine iff_of_true (fun c hc => ?_) trivial
    cases hc

/-! ### Runs -/

/-- The count is sane in every state of a run. -/
def StaysSane (l : SparseIdsList) : List Op → Prop
  | [] => Sane l
  | op :: ops => Sane l ∧ StaysSane (l.step op) ops

def SafeRun (l : SparseIdsList) : List Op → Prop
  | [] => True
  | op :: ops => l.Safe op ∧ SafeRun (l.step op) ops

theorem Sane.staysSane_iff (hs : Sane l) (h : Ordered l.slices) {ops : List Op}
    (hops : ∀ op ∈ ops, op.Valid) : StaysSane l ops ↔ SafeRun l ops := by
  induction ops generalizing l with
  | nil => exact iff_of_true hs trivial
  | cons op ops ih =>
    obtain ⟨hop, hrest⟩ := List.forall_mem_cons.mp hops
    have hstep := hs.step_iff h hop
    have hordered := h.step hop
    constructor
    · rintro ⟨-, hstays⟩
      have hnext : Sane (l.step op) := by
        cases ops with
        | nil => exact hstays
        | cons op' ops => exact hstays.1
      exact ⟨hstep.mp hnext, (ih hnext hordered hrest).mp hstays⟩
    · rintro ⟨hsafe, hrun⟩
      have hnext := hstep.mpr hsafe
      exact ⟨hs, (ih hnext hordered hrest).mpr hrun⟩

theorem count_sane_iff (ops : List Op) (hops : ∀ op ∈ ops, op.Valid) :
    StaysSane {} ops ↔ SafeRun {} ops := by
  refine Sane.staysSane_iff (fun c hc => ?_) ⟨.nil, by simp⟩ hops
  cases hc

/-- A message that comes and goes again. -/
theorem count_sane_iff_removed : StaysSane {} [.removeAll, .addNew 5, .removeOne 5] ↔
    SafeRun {} [.removeAll, .addNew 5, .removeOne 5] := by
  refine count_sane_iff _ fun op hop => ?_
  simp only [List.mem_cons, List.not_mem_nil, or_false] at hop
  rcases hop with rfl | rfl | rfl
  · trivial
  · refine ⟨by decide, fun id hid => ?_⟩
    rw [List.mem_singleton.mp hid]
    exact ⟨le_rfl, by decide⟩
  · trivial

/-- Everything is removed, and then a message that is not known. -/
theorem count_negative : (∀ op ∈ [Op.removeAll, .removeOne 5], op.Valid) ∧
    ((removeAll).removeOne 5).count = some (-1) ∧ ¬StaysSane {} [.removeAll, .removeOne 5] := by
  refine ⟨fun op hop => ?_, rfl, fun h => ?_⟩
  · simp only [List.mem_cons, List.not_mem_nil, or_false] at hop
    rcases hop with rfl | rfl
    · trivial
    · trivial
  · exact absurd (h.2.2 (-1) rfl).1 (by decide)

end SparseIdsList

end TelegramClient.Storage
