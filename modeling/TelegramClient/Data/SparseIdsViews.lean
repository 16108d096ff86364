import TelegramClient.Data.SparseIdsBuilder

/-! Views of a list while messages come and go: what is shown is always a part of what the server has
(`data/data_sparse_ids.cpp`). -/

namespace TelegramClient.Data

open OrderedSets Base Storage

namespace SparseIdsSliceBuilder

open SparseIdsList (Exact Faithful Slice)

variable {b : SparseIdsSliceBuilder} {l : SparseIdsList} {t t' : OrderedSet Int} {op : SparseIdsList.Op}

/-! ### Updates -/

theorem Placed.lowerBound_first {before after rest : List Int} {first : Int}
    (h : Placed t b before after) (hids : b.ids.items = first :: rest) :
    t.lowerBound first = before.length := by
  have hitems : t.items = before ++ first :: (rest ++ after) := by
    rw [h.items, hids, List.append_assoc, List.cons_append]
  exact OrderedSet.lowerBound_eq hitems

theorem Placed.lowerBound_last {before after init : List Int} {last : Int}
    (h : Placed t b before after) (hids : b.ids.items = init ++ [last]) :
    t.size = t.lowerBound last + 1 + after.length := by
  have hitems : t.items = (before ++ init) ++ last :: after := by
    rw [h.items, hids]
    simp only [List.append_assoc, List.cons_append, List.nil_append]
  rw [OrderedSet.lowerBound_eq hitems]
  show t.items.length = _
  rw [hitems, List.length_append, List.length_cons]
  omega

/-- What is shown before an update of a slice is merged: the last messages may be new. -/
def Stale (l : SparseIdsList) (t : OrderedSet Int) (b : SparseIdsSliceBuilder) (s : Slice) : Prop :=
  b.ids.items ≠ [] → ∃ before after u, Placed t b before after ∧ Inside l b u ∧
    (b.skippedBefore = none → u = s ∧ s.range.till = serverMaxMsgId ∨ Exact b.skippedAfter after.length)

theorem Stale.shown {s : Slice} (h : Stale l t b s)
    (hother : b.ids.items ≠ [] → ¬∃ id ∈ b.ids, s.range.has id) : Shown l t b := by
  intro hne
  obtain ⟨before, after, u, hplaced, hinside, hexact⟩ := h hne
  refine ⟨before, after, u, hplaced, hinside, fun hnone => (hexact hnone).resolve_left ?_⟩
  rintro ⟨rfl, -⟩
  obtain ⟨id, hid⟩ := List.exists_mem_of_ne_nil _ hne
  exact hother hne ⟨id, hid, hinside.has id hid⟩

/-- What was known before is taken from the first of the ids, which is found again. -/
theorem mergedSkippedBefore_eq_some {ids : OrderedSet Int} {front k : Int} {skipped : Option Int}
    (h : b.mergedSkippedBefore ids front skipped = some k) :
    (∃ n, skipped = some n ∧ k = adjustSkippedBefore ids front n) ∨
      ∃ old first rest, b.skippedBefore = some old ∧ b.ids.items = first :: rest ∧
        k = adjustSkippedBefore ids first old := by
  cases skipped with
  | some n => exact .inl ⟨n, rfl, (Option.some.inj h).symm⟩
  | none =>
    cases hids : b.ids.items with
    | nil =>
      simp only [mergedSkippedBefore, hids, List.head?_nil, Option.getD_none] at h
      cases h
    | cons first rest =>
      simp only [mergedSkippedBefore, hids, List.head?_cons, Option.getD_some] at h
      split at h
      · obtain ⟨old, hold, rfl⟩ := Option.map_eq_some_iff.mp h
        exact .inr ⟨old, first, rest, hold, rfl, rfl⟩
      · cases h

theorem mergedSkippedAfter_eq_some {ids : OrderedSet Int} {back k : Int} {skipped : Option Int}
    (h : b.mergedSkippedAfter ids back skipped = some k) :
    (∃ n, skipped = some n ∧ k = adjustSkippedAfter ids back n) ∨
      ∃ old init last, b.skippedAfter = some old ∧ b.ids.items = init ++ [last] ∧
        k = adjustSkippedAfter ids last old ∧ skipped = none := by
  cases skipped with
  | some n => exact .inl ⟨n, rfl, (Option.some.inj h).symm⟩
  | none =>
    rcases List.eq_nil_or_concat' b.ids.items with hids | ⟨init, last, hids⟩
    · simp only [mergedSkippedAfter, hids, List.getLast?_nil, Option.getD_none] at h
      cases h
    · simp only [mergedSkippedAfter, hids, List.getLast?_concat, Option.getD_some] at h
      split at h
      · obtain ⟨old, hold, rfl⟩ := Option.map_eq_some_iff.mp h
        exact .inr ⟨old, init, last, hold, hids, rfl, rfl⟩
      · cases h

/-- Nothing is known after it only if nothing was known. -/
theorem skippedBefore_of_merged {ids : OrderedSet Int} {front first : Int} {rest : List Int}
    (h : b.mergedSkippedBefore ids front none = none) (hids : b.ids.items = first :: rest)
    (hfirst : 0 ≤ first) : b.skippedBefore = none := by
  simp only [mergedSkippedBefore, hids, List.head?_cons, Option.getD_some, if_pos hfirst,
    Option.map_eq_none_iff] at h
  exact h

/-- The messages of a slice that the ids are of, or that is the first one, are all ids after it is
merged. -/
theorem Stale.mergeMessages {s : Slice} {front back : Int} (h : Stale l t b s) (hf : l.Faithful t)
    (hs : s ∈ l.slices) (hsame : b.ids.items ≠ [] → ∀ u, Inside l b u → u = s)
    (hback : s.messages.items.getLast? = some back) (count : Option Int) :
    Shown l t (b.mergeMessages count s.messages front back
      (if s.range.from = 0 then some 0 else none)
      (if s.range.till = serverMaxMsgId then some 0 else none)) := by
  intro _
  obtain ⟨lo, hi, hitems, hlo, hhi⟩ := OrderedSet.items_between (hf.exact s hs)
  have hmem : ∀ id ∈ b.ids, id ∈ s.messages := by
    intro id hid
    have hne := List.ne_nil_of_mem hid
    obtain ⟨before, after, u, hplaced, hinside, -⟩ := h hne
    obtain rfl := hsame hne u hinside
    refine (hf.exact u hs id).mpr ⟨?_, hinside.has id hid⟩
    rw [OrderedSet.mem_def, hplaced.items]
    exact List.mem_append_left _ (List.mem_append_right _ hid)
  have hids : b.ids.merge s.messages.items = s.messages := OrderedSet.ext_mem fun id => by
    rw [OrderedSet.mem_merge]
    exact or_iff_right_of_imp (hmem id)
  have hserver : ∀ a ∈ t.items, 0 ≤ a ∧ a ≤ serverMaxMsgId := fun a ha =>
    SparseIdsList.wholeRange_has (hf.server a ha)
  have hfirst : s.range.from = 0 → lo = [] := fun hfrom =>
    List.eq_nil_iff_forall_not_mem.mpr fun a ha => by
      have hpos := (hserver a (by rw [hitems]; simp [ha])).1
      have hneg := hlo a ha
      omega
  have hlast : s.range.till = serverMaxMsgId → hi = [] := fun htill =>
    List.eq_nil_iff_forall_not_mem.mpr fun a ha => by
      have hle := (hserver a (by rw [hitems]; simp [ha])).2
      have hgt := hhi a ha
      omega
  have htotal : t.size = lo.length + s.messages.size + hi.length := by
    show t.items.length = _
    rw [hitems, List.length_append, List.length_append]
    rfl
  have hold : ∀ first rest, b.ids.items = first :: rest → first ∈ s.messages ∧ 0 ≤ first ∧
      ∃ before after, Placed t b before after ∧ Inside l b s := by
    intro first rest hcons
    have hne : b.ids.items ≠ [] := hcons ▸ List.cons_ne_nil first rest
    have hfirst : first ∈ b.ids := by
      rw [OrderedSet.mem_def, hcons]
      exact List.mem_cons_self
    obtain ⟨before, after, u, hplaced, hinside, -⟩ := h hne
    have hin : first ∈ t.items := ((hf.exact s hs first).mp (hmem first hfirst)).1
    exact ⟨hmem first hfirst, (hserver first hin).1, before, after, hplaced, hsame hne u hinside ▸ hinside⟩
  have hskippedBefore : Exact (b.mergedSkippedBefore s.messages front
      (if s.range.from = 0 then some 0 else none)) lo.length := by
    intro k hk
    rcases mergedSkippedBefore_eq_some hk with ⟨n, hn, rfl⟩ | ⟨old, first, rest, hknown, hcons, rfl⟩
    · by_cases hfrom : s.range.from = 0
      · rw [if_pos hfrom] at hn
        rw [← Option.some.inj hn, hfirst hfrom, adjustSkippedBefore, List.length_nil]
        omega
      · rw [if_neg hfrom] at hn
        cases hn
    · obtain ⟨hmem', -, before, after, hplaced, -⟩ := hold first rest hcons
      have hlower := hplaced.lowerBound_first hcons
      rw [OrderedSet.lowerBound_append hitems hmem'] at hlower
      rw [hplaced.skippedBefore old hknown, adjustSkippedBefore]
      omega
  have htill : b.mergedSkippedBefore s.messages front (if s.range.from = 0 then some 0 else none) = none →
      b.mergedSkippedAfter s.messages back (if s.range.till = serverMaxMsgId then some 0 else none) ≠ none →
        s.range.till = serverMaxMsgId := by
    intro hnone hsome
    by_contra hend
    obtain ⟨k, hk⟩ := Option.ne_none_iff_exists'.mp hsome
    rcases mergedSkippedAfter_eq_some hk with ⟨n, hn, -⟩ | ⟨old, init, last, hknown, hids', -, -⟩
    · rw [if_neg hend] at hn
      cases hn
    · obtain ⟨first, rest, hcons⟩ := List.exists_cons_of_ne_nil
        (hids' ▸ List.append_ne_nil_of_right_ne_nil init (List.cons_ne_nil last []))
      obtain ⟨-, hpos, before, after, -, hinside⟩ := hold first rest hcons
      by_cases hfrom : s.range.from = 0
      · rw [if_pos hfrom] at hnone
        cases hnone
      · rw [if_neg hfrom] at hnone
        have hwas := skippedBefore_of_merged hnone hcons hpos
        exact hend (hinside.till hwas (by rw [hknown]; exact Option.some_ne_none old))
  have hskippedAfter : ∀ k, b.mergedSkippedAfter s.messages back
      (if s.range.till = serverMaxMsgId then some 0 else none) = some k → 0 ≤ k ∧ k ≤ hi.length := by
    intro k hk
    rcases mergedSkippedAfter_eq_some hk with ⟨n, hn, rfl⟩ | ⟨old, init, last, hknown, hids', rfl, -⟩
    · by_cases hend : s.range.till = serverMaxMsgId
      · rw [if_pos hend] at hn
        obtain ⟨init, hinit⟩ := List.getLast?_eq_some_iff.mp hback
        have hsize : s.messages.size = init.length + 1 := by
          show s.messages.items.length = _
          rw [hinit, List.length_append, List.length_singleton]
        rw [← Option.some.inj hn, adjustSkippedAfter, OrderedSet.lowerBound_eq hinit, hsize]
        omega
      · rw [if_neg hend] at hn
        cases hn
    · have hlastMem : last ∈ b.ids := by
        rw [OrderedSet.mem_def, hids']
        exact List.mem_append_right _ List.mem_cons_self
      obtain ⟨before, after, u, hplaced, -, -⟩ := h (List.ne_nil_of_mem hlastMem)
      have hlower := hplaced.lowerBound_last hids'
      rw [OrderedSet.lowerBound_append hitems (hmem last hlastMem)] at hlower
      have hbounds := hplaced.skippedAfter old hknown
      rw [adjustSkippedAfter]
      omega
  have hmerged : b.mergeMessages count s.messages front back
      (if s.range.from = 0 then some 0 else none)
      (if s.range.till = serverMaxMsgId then some 0 else none) =
    { b with
      fullCount := count.or b.fullCount
      ids := s.messages
      skippedBefore := b.mergedSkippedBefore s.messages front (if s.range.from = 0 then some 0 else none)
      skippedAfter := b.mergedSkippedAfter s.messages back
        (if s.range.till = serverMaxMsgId then some 0 else none) } := by
    rw [SparseIdsSliceBuilder.mergeMessages, hids]
  rw [hmerged]
  refine ⟨lo, hi, s, ⟨hitems, hskippedBefore, hskippedAfter⟩,
    ⟨hs, fun id hid => ((hf.exact s hs id).mp hid).2, htill⟩, fun hnone k hk => ?_⟩
  have hend := htill hnone (Option.ne_none_iff_exists'.mpr ⟨k, hk⟩)
  have hbounds := hskippedAfter k hk
  rw [hlast hend] at hbounds ⊢
  exact le_antisymm hbounds.2 hbounds.1

theorem Inside.extends {next : SparseIdsList} {u u' : Slice} (hinside : Inside l b u)
    (hu' : u' ∈ next.slices) (hextends : SparseIdsList.Extends u' u) : Inside next b u' :=
  ⟨hu', fun id hid => hextends.1 id (hinside.has id hid),
    fun hnone hsome => hextends.2 (hinside.till hnone hsome)⟩

/-- What the server has after it was told, when messages came to the list. -/
def Grown (t t' : OrderedSet Int) (range : MsgRange) : Prop :=
  t' = t ∨ ∃ id, t' = t.merge [id] ∧ (∀ a ∈ t, a < id) ∧ range.till = serverMaxMsgId

theorem Shown.stale {next : SparseIdsList} {update : SparseIdsSliceUpdate} {range : MsgRange} {s : Slice}
    (h : Shown l t b) (hnext : next.Faithful t') (hupdated : l.Updated next update range s)
    (hgrown : Grown t t' range) : Stale next t' b s := by
  intro hne
  obtain ⟨before, after, u, hplaced, hinside, hexact⟩ := h hne
  obtain ⟨u', hu', hextends⟩ := hupdated.grows u hinside.mem
  rcases hgrown with rfl | ⟨id, rfl, hnew, htill⟩
  · exact ⟨before, after, u', hplaced, hinside.extends hu' hextends, fun hnone => .inr (hexact hnone)⟩
  · have hmore : ∀ a ∈ before ++ b.ids.items, ∀ c ∈ [id], a < c := by
      intro a ha c hc
      rw [List.mem_singleton.mp hc]
      refine hnew a ?_
      rw [OrderedSet.mem_def, hplaced.items]
      exact List.mem_append_left _ ha
    have hitems := OrderedSet.items_merge_after hplaced.items hmore
    have hsorted := t.nodup
    rw [hplaced.items] at hsorted
    have hsize := @OrderedSet.size_ofList_append_ge _ _ after [id] (List.nodup_append.mp hsorted).2.1
    refine ⟨before, _, u', ⟨hitems, hplaced.skippedBefore, fun k hk => ?_⟩, hinside.extends hu' hextends,
      fun hnone => ?_⟩
    · obtain ⟨hpos, hle⟩ := hplaced.skippedAfter k hk
      exact ⟨hpos, hle.trans (Nat.cast_le.mpr hsize)⟩
    · by_cases hsome : b.skippedAfter = none
      · exact .inr fun k hk => by rw [hsome] at hk; cases hk
      · have hend := hextends.2 (hinside.till hnone hsome)
        have hend' := hupdated.till htill
        have hs := hnext.ordered.contained s hupdated.mem
        have hx := hnext.ordered.contained u' hu'
        refine .inl ⟨hnext.ordered.eq_of_touches hupdated.mem hu' ?_ ?_, hend'⟩
        · rw [hend, ← hend']
          exact hs.1
        · rw [hend', ← hend]
          exact hx.1

/-- Ranges that meet those of the ids. -/
theorem Inside.eq_of_intersects {s u : Slice} (hf : l.Faithful t) (hinside : Inside l b u)
    (hs : s ∈ l.slices) (hne : b.ids.items ≠ [])
    (h : intersects s.range ⟨b.ids.items.head?.getD b.key, b.ids.items.getLast?.getD b.key⟩) : u = s := by
  obtain ⟨first, rest, hfirst⟩ := List.exists_cons_of_ne_nil hne
  obtain ⟨init, last, hlast⟩ := (List.eq_nil_or_concat' b.ids.items).resolve_left hne
  have hfirst' := hinside.has first (by rw [OrderedSet.mem_def, hfirst]; exact List.mem_cons_self)
  have hlast' := hinside.has last (by rw [OrderedSet.mem_def, hlast]; simp)
  rw [intersects, Bool.and_eq_true, decide_eq_true_eq, decide_eq_true_eq, hfirst, List.head?_cons,
    ← hfirst, hlast, List.getLast?_concat, Option.getD_some, Option.getD_some] at h
  exact hf.ordered.eq_of_touches hs hinside.mem (h.1.trans hlast'.2) (hfirst'.1.trans h.2)

theorem Inside.intersects {s : Slice} {id : Int} (hid : id ∈ b.ids) (hhas : s.range.has id) :
    intersects s.range ⟨b.ids.items.head?.getD b.key, b.ids.items.getLast?.getD b.key⟩ := by
  have hne := List.ne_nil_of_mem hid
  obtain ⟨first, rest, hfirst⟩ := List.exists_cons_of_ne_nil hne
  obtain ⟨init, last, hlast⟩ := (List.eq_nil_or_concat' b.ids.items).resolve_left hne
  have hle : id ≤ last := OrderedSet.le_getLast? (by rw [hlast, List.getLast?_concat]) hid
  have hge : first ≤ id := by
    rw [OrderedSet.mem_def, hfirst] at hid
    have hsorted := b.ids.sorted
    rw [hfirst] at hsorted
    rcases List.mem_cons.mp hid with rfl | hid
    · exact le_rfl
    · exact ((List.pairwise_cons.mp hsorted).1 id hid).le
  rw [SparseIdsSliceBuilder.intersects, Bool.and_eq_true, decide_eq_true_eq, decide_eq_true_eq, hfirst,
    List.head?_cons, ← hfirst, hlast, List.getLast?_concat, Option.getD_some, Option.getD_some]
  exact ⟨hhas.1.trans hle, hge.trans hhas.2⟩

theorem Shown.mergeEmpty (h : Shown l t b) (hf : l.Faithful t) (hbefore : 0 ≤ b.limitBefore)
    (hafter : 0 ≤ b.limitAfter) (hcount : l.count = none → b.fullCount = none) :
    View l t (b.mergeCount l.count).fillSkippedAndSliceToLimits := by
  obtain ⟨hshown, hcount'⟩ := h.mergeCount hf hcount
  have hlimits : (b.mergeCount l.count).limitBefore = b.limitBefore ∧
      (b.mergeCount l.count).limitAfter = b.limitAfter := by
    unfold SparseIdsSliceBuilder.mergeCount
    cases l.count with
    | none => exact ⟨rfl, rfl⟩
    | some c =>
      dsimp only
      split
      · exact ⟨rfl, rfl⟩
      split
      · exact ⟨rfl, rfl⟩
      · exact ⟨rfl, rfl⟩
  exact hshown.fillSkippedAndSliceToLimits hf (hlimits.1 ▸ hbefore) (hlimits.2 ▸ hafter) hcount'

theorem or_eq_of_none {count other : Option Int} (h : count = none → other = none) :
    count.or other = none ∨ count.or other = count := by
  cases count with
  | none => exact .inl (h rfl)
  | some c => exact .inr rfl

/-- A view is kept up with what is told of a slice. -/
theorem View.applyUpdate {next : SparseIdsList} {update : SparseIdsSliceUpdate} {range : MsgRange}
    {s : Slice} (hv : View l t b) (hnext : next.Faithful t') (hupdated : l.Updated next update range s)
    (hgrown : Grown t t' range) : View next t' (b.applyUpdate update).1 := by
  have hstale := hv.shown.stale hnext hupdated hgrown
  have hcount : next.count = none → b.fullCount = none := fun hnone =>
    hv.count.elim id fun heq => heq.trans (hupdated.count hnone)
  rw [hupdated.update, SparseIdsSliceBuilder.applyUpdate]
  simp only [Option.isSome_some, Bool.true_and, Option.getD_some]
  cases hneed : intersects s.range ⟨b.ids.items.head?.getD b.key, b.ids.items.getLast?.getD b.key⟩ with
  | false =>
    have hshown : Shown next t' b := hstale.shown fun _ ⟨id, hid, hhas⟩ => by
      rw [Inside.intersects hid hhas] at hneed
      cases hneed
    by_cases hnone : next.count = none
    · rw [if_pos (by simp [hnone])]
      exact ⟨hv.limitBefore, hv.limitAfter, hv.within, .inl (hcount hnone), hshown⟩
    · rw [if_neg (by simpa using hnone)]
      exact hshown.mergeEmpty hnext hv.limitBefore hv.limitAfter hcount
  | true =>
    rw [if_neg (by simp), if_pos rfl]
    rw [SparseIdsSliceBuilder.mergeSliceData]
    rcases List.eq_nil_or_concat' s.messages.items with hnil | ⟨init, back, hlast⟩
    · have hshown : Shown next t' b := hstale.shown fun hne ⟨id, hid, hhas⟩ => by
        obtain ⟨before, after, u, hplaced, -, -⟩ := hstale hne
        have hmem : id ∈ s.messages := (hnext.exact s hupdated.mem id).mpr ⟨by
          rw [OrderedSet.mem_def, hplaced.items]
          exact List.mem_append_left _ (List.mem_append_right _ hid), hhas⟩
        rw [OrderedSet.mem_def, hnil] at hmem
        exact List.not_mem_nil hmem
      rw [hnil]
      exact hshown.mergeEmpty hnext hv.limitBefore hv.limitAfter hcount
    · obtain ⟨front, rest, hfirst⟩ := List.exists_cons_of_ne_nil
        (hlast ▸ List.append_ne_nil_of_right_ne_nil init (List.cons_ne_nil back []))
      have hback : s.messages.items.getLast? = some back := by rw [hlast, List.getLast?_concat]
      have hmerged := @Stale.mergeMessages _ _ _ s front back hstale hnext hupdated.mem
        (fun hne u hinside => hinside.eq_of_intersects hnext hupdated.mem hne hneed) hback next.count
      have hfront : s.messages.items.head? = some front := by rw [hfirst, List.head?_cons]
      rw [hfront, hback]
      exact hmerged.fillSkippedAndSliceToLimits hnext hv.limitBefore hv.limitAfter (or_eq_of_none hcount)

/-! ### Removals -/

/-- One message of the server goes, which is before the ids, among them or after them. -/
theorem Placed.remove {before after : List Int} (h : Placed t b before after) (id : Int) :
    (t.remove id).items =
      before.filter (· ≠ id) ++ b.ids.items.filter (· ≠ id) ++ after.filter (· ≠ id) := by
  show t.items.filter (· ≠ id) = _
  rw [h.items, List.filter_append, List.filter_append]

theorem filter_ne_of_not_mem {list : List Int} {id : Int} (h : id ∉ list) : list.filter (· ≠ id) = list :=
  List.filter_eq_self.mpr fun a ha => by
    rw [decide_eq_true_eq]
    rintro rfl
    exact h ha

theorem length_filter_ne {list : List Int} {id : Int} (hnodup : list.Nodup) (h : id ∈ list) :
    (list.filter (· ≠ id)).length + 1 = list.length := by
  have herase : list.filter (· ≠ id) = list.erase id := by
    rw [hnodup.erase_eq_filter]
    exact List.filter_congr fun a _ => by by_cases ha : a = id <;> simp [ha]
  rw [herase]
  exact List.length_erase_add_one h

theorem Inside.removeOne {s : Slice} (hf : l.Faithful t) (h : Inside l b s) (id : Int) :
    Inside (l.removeOne id) b (s.remove id) := by
  refine ⟨?_, h.has, h.till⟩
  rw [hf.ordered.removeOne_slices]
  exact List.mem_map_of_mem h.mem

theorem count_removeOne {id : Int} (hf : l.Faithful t) (hid : id ∈ t)
    (hcount : b.fullCount = none ∨ b.fullCount = l.count) :
    (b.fullCount.any (0 < ·) = false → b.fullCount = none) ∧
      ((if b.fullCount.any (0 < ·) then b.fullCount.map (· - 1) else b.fullCount) = none ∨
        (if b.fullCount.any (0 < ·) then b.fullCount.map (· - 1) else b.fullCount) =
          (l.removeOne id).count) := by
  have hsize := OrderedSet.size_remove hid
  cases hfull : b.fullCount with
  | none => exact ⟨fun _ => rfl, .inl rfl⟩
  | some c =>
    have hl : l.count = some c := by
      rcases hcount with hnone | heq
      · rw [hnone] at hfull
        cases hfull
      · rw [← heq, hfull]
    have hc := hf.count c hl
    have hpos : (some c).any (0 < ·) = true := decide_eq_true (by omega)
    refine ⟨fun hfalse => absurd (hpos.symm.trans hfalse) Bool.noConfusion, .inr ?_⟩
    rw [if_pos hpos, SparseIdsList.removeOne, hl]

/-- The numbers of what is skipped follow the message that goes. -/
theorem Shown.removeOne {id : Int} (h : Shown l t b) (hf : l.Faithful t) (hid : id ∈ t) :
    (id ∈ b.ids → Shown (l.removeOne id) (t.remove id) { b with ids := b.ids.remove id }) ∧
      (id ∉ b.ids →
        if b.ids.items.head?.any (id < ·) && b.skippedBefore.any (0 < ·) then
          Shown (l.removeOne id) (t.remove id) { b with skippedBefore := b.skippedBefore.map (· - 1) }
        else if b.ids.items.getLast?.any (· < id) && b.skippedAfter.any (0 < ·) then
          Shown (l.removeOne id) (t.remove id) { b with skippedAfter := b.skippedAfter.map (· - 1) }
        else Shown (l.removeOne id) (t.remove id) b) := by
  have hnodup := t.nodup
  constructor
  · intro hmem hne
    obtain ⟨before, after, s, hplaced, hinside, hexact⟩ := h (List.ne_nil_of_mem hmem)
    rw [hplaced.items, List.nodup_append, List.nodup_append] at hnodup
    have hbefore : id ∉ before := fun hin => hnodup.1.2.2 id hin id hmem rfl
    have hafter : id ∉ after := fun hin => hnodup.2.2 id (List.mem_append_right _ hmem) id hin rfl
    refine ⟨before, after, s.remove id, ⟨?_, hplaced.skippedBefore, hplaced.skippedAfter⟩, ?_, hexact⟩
    · rw [hplaced.remove id, filter_ne_of_not_mem hbefore, filter_ne_of_not_mem hafter]
      rfl
    · obtain ⟨hmem', hhas, htill⟩ := hinside.removeOne hf id
      exact ⟨hmem', fun a ha => hhas a (OrderedSet.mem_remove.mp ha).1, htill⟩
  · intro hmem
    rcases List.eq_nil_or_concat' b.ids.items with hnil | ⟨init, last, hlast⟩
    · rw [hnil]
      exact fun hne => absurd hnil hne
    have hne : b.ids.items ≠ [] := hlast ▸ List.append_ne_nil_of_right_ne_nil init (List.cons_ne_nil last [])
    obtain ⟨first, rest, hfirst⟩ := List.exists_cons_of_ne_nil hne
    obtain ⟨before, after, s, hplaced, hinside, hexact⟩ := h hne
    have hitems := hplaced.remove id
    rw [filter_ne_of_not_mem hmem] at hitems
    obtain ⟨hin, hhas, htill⟩ := hinside.removeOne hf id
    have hsorted := t.sorted
    rw [hplaced.items] at hsorted hnodup
    obtain ⟨hsorted', -, hbeforeAfter⟩ := List.pairwise_append.mp hsorted
    obtain ⟨hnodup', hnodupAfter, -⟩ := List.nodup_append.mp hnodup
    have hnodupBefore := (List.nodup_append.mp hnodup').1
    have hlastMem : last ∈ b.ids.items := by rw [hlast]; simp
    have hfirstMem : first ∈ b.ids.items := by rw [hfirst]; exact List.mem_cons_self
    have hfirstLast : first ≤ last := OrderedSet.le_getLast? (by rw [hlast, List.getLast?_concat]) hfirstMem
    rw [hfirst, List.head?_cons, ← hfirst, hlast, List.getLast?_concat, Option.any_some, Option.any_some]
    rw [OrderedSet.mem_def, hplaced.items, List.mem_append, List.mem_append] at hid
    rcases hid with (hid | hid) | hid
    · -- the message was before the ids
      have hless : id < first := (List.pairwise_append.mp hsorted').2.2 id hid first hfirstMem
      have hafter : id ∉ after := fun hmem' => lt_irrefl id (hbeforeAfter id (by simp [hid]) id hmem')
      have hlength := length_filter_ne hnodupBefore hid
      rw [filter_ne_of_not_mem hafter] at hitems
      cases hknown : b.skippedBefore with
      | none =>
        rw [Option.any_none, Bool.and_false, if_neg Bool.false_ne_true,
          if_neg (by simp; omega)]
        refine fun _ => ⟨_, after, _, ⟨hitems, ?_, hplaced.skippedAfter⟩, ⟨hin, hhas, htill⟩, hexact⟩
        intro k hk
        rw [hknown] at hk
        cases hk
      | some k =>
        have hk := hplaced.skippedBefore k hknown
        rw [if_pos (by simp; omega)]
        refine fun _ => ⟨_, after, _, ⟨hitems, ?_, hplaced.skippedAfter⟩, ⟨hin, hhas, ?_⟩, ?_⟩
        · intro k' hk'
          rw [← Option.some.inj hk']
          dsimp only
          omega
        · intro hnone
          cases hnone
        · intro hnone
          cases hnone
    · exact absurd hid hmem
    · -- the message was after the ids
      have hless : last < id := hbeforeAfter last (by simp [hlastMem]) id hid
      have hbefore : id ∉ before := fun hmem' => lt_irrefl id (hbeforeAfter id (by simp [hmem']) id hid)
      have hlength := length_filter_ne hnodupAfter hid
      rw [filter_ne_of_not_mem hbefore] at hitems
      rw [if_neg (by simp; omega)]
      cases hknown : b.skippedAfter with
      | none =>
        rw [Option.any_none, Bool.and_false, if_neg Bool.false_ne_true]
        refine fun _ => ⟨before, _, _, ⟨hitems, hplaced.skippedBefore, fun k hk => ?_⟩,
          ⟨hin, hhas, htill⟩, fun _ k hk => ?_⟩
        · rw [hknown] at hk
          cases hk
        · rw [hknown] at hk
          cases hk
      | some k =>
        obtain ⟨hk, hle⟩ := hplaced.skippedAfter k hknown
        by_cases hpos : 0 < k
        · rw [if_pos (by simp; omega)]
          refine fun _ => ⟨before, _, _, ⟨hitems, hplaced.skippedBefore, fun k' hk' => ?_⟩,
            ⟨hin, hhas, fun hnone _ => htill hnone (by rw [hknown]; exact Option.some_ne_none k)⟩,
            fun hnone k' hk' => ?_⟩
          · rw [← Option.some.inj hk']
            dsimp only
            omega
          · have heq := hexact hnone k hknown
            rw [← Option.some.inj hk']
            dsimp only
            omega
        · rw [if_neg (by simp; omega)]
          refine fun _ => ⟨before, _, _, ⟨hitems, hplaced.skippedBefore, fun k' hk' => ?_⟩,
            ⟨hin, hhas, htill⟩, fun hnone => ?_⟩
          · rw [hknown] at hk'
            rw [← Option.some.inj hk']
            omega
          · have heq := hexact hnone k hknown
            omega

theorem View.removeOne {id : Int} (hv : View l t b) (hf : l.Faithful t) (hid : id ∈ t) :
    View (l.removeOne id) (t.remove id) (b.removeOne id).1 := by
  obtain ⟨hcounted, hcount⟩ := count_removeOne hf hid hv.count
  have hfields : b.countRemoved.ids = b.ids ∧ b.countRemoved.skippedBefore = b.skippedBefore ∧
      b.countRemoved.skippedAfter = b.skippedAfter ∧ b.countRemoved.limitBefore = b.limitBefore ∧
      b.countRemoved.limitAfter = b.limitAfter ∧ b.countRemoved.fullCount =
        if b.fullCount.any (0 < ·) then b.fullCount.map (· - 1) else b.fullCount := by
    unfold countRemoved
    split
    · exact ⟨rfl, rfl, rfl, rfl, rfl, rfl⟩
    · exact ⟨rfl, rfl, rfl, rfl, rfl, rfl⟩
  obtain ⟨hids, hskippedBefore, hskippedAfter, hlimitBefore, hlimitAfter, hfull⟩ := hfields
  have hsame : b.fullCount.any (0 < ·) = false → b.countRemoved = b := fun hany => by
    rw [countRemoved, hany]
    exact if_neg Bool.false_ne_true
  rw [← hfull] at hcount
  have hbefore := hlimitBefore ▸ hv.limitBefore
  have hafter := hlimitAfter ▸ hv.limitAfter
  obtain ⟨hamong, hoff⟩ := (hv.shown.congr hids hskippedBefore hskippedAfter).removeOne hf hid
  unfold SparseIdsSliceBuilder.removeOne
  dsimp only
  by_cases hmem : id ∈ b.countRemoved.ids
  · rw [if_pos (List.contains_iff_mem.mpr hmem)]
    exact (hamong hmem).sliceToLimits hbefore hafter hcount
  rw [if_neg (fun hcontains => hmem (List.contains_iff_mem.mp hcontains))]
  have hshown := hoff hmem
  split
  · next hfirst =>
    rw [if_pos hfirst] at hshown
    exact hshown.sliceToLimits hbefore hafter hcount
  next hfirst =>
  rw [if_neg hfirst] at hshown
  split
  · next hlast =>
    rw [if_pos hlast] at hshown
    exact hshown.sliceToLimits hbefore hafter hcount
  next hlast =>
  rw [if_neg hlast] at hshown
  cases hany : b.fullCount.any (0 < ·) with
  | true => exact hshown.sliceToLimits hbefore hafter hcount
  | false =>
    rw [if_neg Bool.false_ne_true]
    refine ⟨hbefore, hafter, ?_, hcount, hshown⟩
    rw [hsame hany]
    exact hv.within

/-- Nothing is after the ids that is known when messages may have been missed. -/
theorem View.invalidateBottom (hv : View l t b) (hf : l.Faithful t) {missed : List Int}
    (hmissed : ∀ id ∈ missed, l.Missed id) : View l.invalidateBottom (t.merge missed) b.invalidateBottom := by
  refine Shown.sliceToLimits ?_ hv.limitBefore hv.limitAfter (.inl rfl)
  intro hne
  obtain ⟨before, after, u, hplaced, hinside, -⟩ := hv.shown hne
  have hmem : ∀ id ∈ b.ids, id ∈ u.messages := fun id hid => by
    refine (hf.exact u hinside.mem id).mpr ⟨?_, hinside.has id hid⟩
    rw [OrderedSet.mem_def, hplaced.items]
    exact List.mem_append_left _ (List.mem_append_right _ hid)
  have hmore : ∀ a ∈ before ++ b.ids.items, ∀ id ∈ missed, a < id := by
    intro a ha id hid
    have hknown := (hmissed id hid u hinside.mem).2.1
    rcases List.mem_append.mp ha with ha | ha
    · obtain ⟨first, hfirst⟩ := List.exists_mem_of_ne_nil _ hne
      have hsorted := t.sorted
      rw [hplaced.items] at hsorted
      have hless := (List.pairwise_append.mp (List.pairwise_append.mp hsorted).1).2.2 a ha first hfirst
      exact hless.trans (hknown first (hmem first hfirst))
    · exact hknown a (hmem a ha)
  have hitems := OrderedSet.items_merge_after hplaced.items hmore
  have hnone : ∀ k : Int, (none : Option Int) ≠ some k := fun k hk => by cases hk
  rcases hf.invalidateBottom_mem hinside.mem with hu | hu
  · exact ⟨before, _, u, ⟨hitems, hplaced.skippedBefore, fun k hk => absurd hk (hnone k)⟩,
      ⟨hu, hinside.has, fun _ hsome => absurd rfl hsome⟩, fun _ k hk => absurd hk (hnone k)⟩
  · have hcut := (SparseIdsList.contained_cutTill (hf.ordered.contained u hinside.mem)).1
    exact ⟨before, _, u.cutTill, ⟨hitems, hplaced.skippedBefore, fun k hk => absurd hk (hnone k)⟩,
      ⟨hu, fun id hid => hcut.2 id (hmem id hid), fun _ hsome => absurd rfl hsome⟩,
      fun _ k hk => absurd hk (hnone k)⟩

theorem View.removeAll (hv : View l t b) : View SparseIdsList.removeAll .empty b.removeAll :=
  ⟨hv.limitBefore, hv.limitAfter, fun _ => ⟨hv.limitBefore, hv.limitAfter.trans (Int.le_add_one le_rfl)⟩,
    .inr rfl, fun hne => absurd rfl hne⟩

/-! ### Runs -/

theorem adjustSkippedBefore_front {ids : OrderedSet Int} {front k : Int} {rest : List Int}
    (hids : ids.items = front :: rest) (hk : 0 ≤ k) : adjustSkippedBefore ids front k = k := by
  have hitems : ids.items = [] ++ front :: rest := hids
  rw [adjustSkippedBefore, OrderedSet.lowerBound_eq hitems, List.length_nil]
  omega

theorem adjustSkippedAfter_back {ids : OrderedSet Int} {back k : Int} {init : List Int}
    (hids : ids.items = init ++ [back]) (hk : 0 ≤ k) : adjustSkippedAfter ids back k = k := by
  have hsize : ids.size = init.length + 1 := by
    show ids.items.length = _
    rw [hids, List.length_append, List.length_singleton]
  rw [adjustSkippedAfter, OrderedSet.lowerBound_eq hids, hsize]
  omega

/-- The first part is what the list answered. -/
theorem view_applyInitial (hf : l.Faithful t) {query : SparseIdsListQuery} (hbefore : 0 ≤ query.limitBefore)
    (hafter : 0 ≤ query.limitAfter) {result : SparseIdsListResult} (h : l.query query = some result)
    (hids : b.ids = .empty) (hfull : b.fullCount = none) (hbefore' : 0 ≤ b.limitBefore)
    (hafter' : 0 ≤ b.limitAfter) : View l t (b.applyInitial result) := by
  have hcount : result.count = l.count := SparseIdsList.query_count hf.ordered h
  rw [SparseIdsSliceBuilder.applyInitial, hcount, SparseIdsSliceBuilder.mergeSliceData]
  rcases List.eq_nil_or_concat' result.messageIds.items with hnil | ⟨init, back, hlast⟩
  · rw [hnil]
    have hshown : Shown l t b := fun hne => absurd (congrArg OrderedSet.items hids) hne
    exact hshown.mergeEmpty hf hbefore' hafter' fun _ => hfull
  have hne : result.messageIds.items ≠ [] :=
    hlast ▸ List.append_ne_nil_of_right_ne_nil init (List.cons_ne_nil back [])
  obtain ⟨front, rest, hfirst⟩ := List.exists_cons_of_ne_nil hne
  obtain ⟨before, after, hwindow⟩ := hf.query hbefore hafter h
  obtain ⟨s, hs, hhas, htill⟩ := hf.ordered.query_inside hbefore hafter h hne
  have hmerge : b.ids.merge result.messageIds.items = result.messageIds := OrderedSet.ext_mem fun id => by
    rw [OrderedSet.mem_merge, hids]
    exact or_iff_right List.not_mem_nil
  have hskippedBefore : b.mergedSkippedBefore result.messageIds front result.skippedBefore =
      result.skippedBefore := by
    cases hknown : result.skippedBefore with
    | none =>
      rw [mergedSkippedBefore, hids]
      rfl
    | some k =>
      have hk := hwindow.skippedBefore k hknown
      exact congrArg some (adjustSkippedBefore_front hfirst (hk ▸ Int.natCast_nonneg _))
  have hskippedAfter : b.mergedSkippedAfter result.messageIds back result.skippedAfter =
      result.skippedAfter := by
    cases hknown : result.skippedAfter with
    | none =>
      rw [mergedSkippedAfter, hids]
      rfl
    | some k =>
      have hk := hwindow.skippedAfter k hknown
      exact congrArg some (adjustSkippedAfter_back hlast (hk ▸ Int.natCast_nonneg _))
  have hmerged : b.mergeMessages l.count result.messageIds front back result.skippedBefore
      result.skippedAfter =
    { b with
      fullCount := l.count.or b.fullCount
      ids := result.messageIds
      skippedBefore := result.skippedBefore
      skippedAfter := result.skippedAfter } := by
    rw [SparseIdsSliceBuilder.mergeMessages, hmerge, hskippedBefore, hskippedAfter]
  have hfront : result.messageIds.items.head? = some front := by rw [hfirst, List.head?_cons]
  have hback : result.messageIds.items.getLast? = some back := by rw [hlast, List.getLast?_concat]
  rw [hfront, hback]
  dsimp only
  rw [hmerged]
  refine Shown.fillSkippedAndSliceToLimits (fun _ => ?_) hf hbefore' hafter' (or_eq_of_none fun _ => hfull)
  exact ⟨before, after, s, ⟨hwindow.items, hwindow.skippedBefore, fun k hk =>
    ⟨hwindow.skippedAfter k hk ▸ Int.natCast_nonneg _, (hwindow.skippedAfter k hk).le⟩⟩,
    ⟨hs, hhas, htill⟩, fun _ => hwindow.skippedAfter⟩

theorem view_start (hf : l.Faithful t) {key limitBefore limitAfter : Int} (hbefore : 0 ≤ limitBefore)
    (hafter : 0 ≤ limitAfter) : View l t (start l key limitBefore limitAfter) := by
  rw [start]
  cases hresult : l.query ⟨key, limitBefore, limitAfter⟩ with
  | none =>
    have hshown : Shown l t { key, limitBefore, limitAfter } := fun hne => absurd rfl hne
    exact hshown.sliceToLimits hbefore hafter (.inl rfl)
  | some result =>
    have hview := @view_applyInitial { key, limitBefore, limitAfter } l t hf _ hbefore hafter result hresult
      rfl rfl hbefore hafter
    exact hview.shown.sliceToLimits hview.limitBefore hview.limitAfter hview.count

theorem View.follow (hv : View l t b) (hf : l.Faithful t) (htold : l.Told t op t') :
    View (l.step op) t' (b.follow l op) := by
  have hnext := hf.step htold
  cases htold with
  | addNew hserver hnew =>
    have hle := (SparseIdsList.wholeRange_has hserver).2
    obtain ⟨s, hupdated⟩ := hf.updated (SparseIdsList.contained_new hle) le_rfl none true
    exact hv.applyUpdate hnext hupdated (.inr ⟨_, rfl, hnew, rfl⟩)
  | addExisting hknows =>
    obtain ⟨s, hupdated⟩ := hf.updated hknows.contained hknows.till_le none false
    exact hv.applyUpdate hnext hupdated (.inl rfl)
  | addSlice hknows hcount =>
    obtain ⟨s, hupdated⟩ := hf.updated hknows.contained hknows.till_le _ false
    exact hv.applyUpdate hnext hupdated (.inl rfl)
  | removeOne hmem => exact hv.removeOne hf hmem
  | removeAll => exact hv.removeAll
  | invalidateBottom hserver hmissed => exact hv.invalidateBottom hf hmissed

theorem Viewed.view (h : Viewed l t b) : l.Faithful t ∧ View l t b := by
  induction h with
  | start hreached hbefore hafter => exact ⟨hreached.faithful, view_start hreached.faithful hbefore hafter⟩
  | step h htold ih => exact ⟨ih.1.step htold, ih.2.follow ih.1 htold⟩

/-- What is shown in a run is a part of the messages that the server has, with none left out between
them and no more than the limits allow. The count of all is that of the server, as many are skipped
before them as there are, and no more after them than there are. -/
theorem viewed_snapshot (h : Viewed l t b) :
    Exact b.snapshot.fullCount t.size ∧ b.Within ∧
      (b.snapshot.ids.items ≠ [] → ∃ before after,
        t.items = before ++ b.snapshot.ids.items ++ after ∧
          Exact b.snapshot.skippedBefore before.length ∧
          (∀ k, b.snapshot.skippedAfter = some k → 0 ≤ k ∧ k ≤ after.length) ∧
          (b.snapshot.skippedBefore = none → Exact b.snapshot.skippedAfter after.length)) := by
  obtain ⟨hf, hv⟩ := h.view
  refine ⟨fun c hc => ?_, hv.within, fun hne => ?_⟩
  · rcases hv.count with hnone | heq
    · rw [show b.snapshot.fullCount = b.fullCount from rfl, hnone] at hc
      cases hc
    · exact hf.count c (heq ▸ hc)
  · obtain ⟨before, after, s, hplaced, -, hexact⟩ := hv.shown hne
    exact ⟨before, after, hplaced.items, hplaced.skippedBefore, hplaced.skippedAfter, hexact⟩

/-- A view of the end of a list, after a new message. -/
def shownTwelve : SparseIdsSliceBuilder :=
  (start SparseIdsList.endOfThree 9 1 1).follow SparseIdsList.endOfThree (.addNew 12)

theorem viewed_snapshot_twelve :
    Exact shownTwelve.snapshot.fullCount (SparseIdsList.serverOfThree.merge [12]).size ∧ shownTwelve.Within ∧
      (shownTwelve.snapshot.ids.items ≠ [] → ∃ before after,
        (SparseIdsList.serverOfThree.merge [12]).items = before ++ shownTwelve.snapshot.ids.items ++ after ∧
          Exact shownTwelve.snapshot.skippedBefore before.length ∧
          (∀ k, shownTwelve.snapshot.skippedAfter = some k → 0 ≤ k ∧ k ≤ after.length) ∧
          (shownTwelve.snapshot.skippedBefore = none →
            Exact shownTwelve.snapshot.skippedAfter after.length)) :=
  viewed_snapshot (.step (.start SparseIdsList.reached_endOfThree (by decide) (by decide))
    SparseIdsList.told_twelve)

end SparseIdsSliceBuilder

end TelegramClient.Data
