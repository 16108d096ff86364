import TelegramClient.Lib.PrefixSearch
import TelegramClient.ChatHelpers.KeywordCache

/-! Queries of a pack: what they answer after any differences and caches, and when every emoji
is in the answer once. -/

namespace TelegramClient.ChatHelpers

open Lang Std

variable {Emoji : Type} (env : Environment Emoji)

/-- The keys that a query is about. -/
def isChosen (normalized : QString) (exact : Bool) (key : QString) : Bool :=
  if exact then key = normalized else normalized.isPrefixOf key

/-- The answer has the emoji that are attached to the chosen keys, each once under the first of its
keys, in the order of the keys. -/
structure Answers (words : Set (QString × QString)) (normalized : QString) (exact : Bool)
    (results : List (Result Emoji)) : Prop where
  once : (results.map Result.emoji).Nodup
  mem_iff : ∀ emoji, emoji ∈ results.map Result.emoji ↔ ∃ pair ∈ words,
    isChosen normalized exact pair.1 ∧ ∃ entry, env.entry pair.2 = some entry ∧ entry.emoji = emoji
  attached : ∀ r ∈ results, (r.label, r.replacement) ∈ words ∧
    isChosen normalized exact r.label ∧ env.entry r.replacement = some ⟨r.emoji, r.replacement⟩
  first : ∀ r ∈ results, ∀ pair ∈ words, isChosen normalized exact pair.1 →
    env.entry pair.2 = some ⟨r.emoji, pair.2⟩ → compare r.label pair.1 ≠ .gt
  inOrder : results.Pairwise fun r r' => compare r.label r'.label ≠ .gt

section

variable {env} {emoji : Words Emoji} {data : LangPackData Emoji} {key normalized : QString}
  {entry : LangPackEmoji Emoji} {list : List (LangPackEmoji Emoji)} {exact oneByOne : Bool}
  {pairs : List (QString × List (LangPackEmoji Emoji))}

/-! ### The chosen keys -/

theorem isChosen_true : isChosen normalized true key = true ↔ key = normalized := by
  simp [isChosen]

theorem isChosen_false : isChosen normalized false key = true ↔ normalized <+: key := by
  simp [isChosen]

theorem isChosen_length (h : isChosen normalized exact key = true) :
    normalized.length ≤ key.length := by
  cases exact with
  | true => rw [isChosen_true.mp h]
  | false => exact (isChosen_false.mp h).length_le

theorem chosen_eq_filter : chosen data normalized exact =
    data.emoji.toList.filter fun pair => isChosen normalized exact pair.1 := by
  have hsorted := ExtTreeMap.ordered_keys_toList (t := data.emoji)
  apply PrefixSearch.takeWhile_dropWhile_eq_filter
  · intro pair _ hbefore
    rw [decide_eq_true_eq] at hbefore
    rw [← Bool.not_eq_true]
    intro hchosen
    cases exact with
    | true => simp [isChosen_true.mp hchosen] at hbefore
    | false => exact PrefixSearch.not_lt_of_prefix (isChosen_false.mp hchosen) hbefore
  · refine hsorted.imp ?_
    intro a b hab hb
    rw [decide_eq_true_eq] at hb ⊢
    exact TransCmp.lt_trans hab hb
  · refine hsorted.imp ?_
    intro a b hab hb
    rw [decide_eq_true_eq]
    cases exact with
    | true => exact .inl (by rw [← isChosen_true.mp hb, hab])
    | false =>
      by_cases hbefore : compare a.1 normalized = .lt
      · exact .inl hbefore
      · have hbetween := PrefixSearch.prefix_of_between hbefore (by simp [hab])
          (isChosen_false.mp hb)
        exact .inr (isChosen_false.mpr hbetween)

theorem chosen_sorted :
    (chosen data normalized exact).Pairwise fun a b => compare a.1 b.1 = .lt := by
  rw [chosen_eq_filter]
  exact ExtTreeMap.ordered_keys_toList.filter _

/-! ### Results that are added -/

variable [DecidableEq Emoji]

structure Added (oneByOne : Bool) (results : List (Result Emoji)) (label : QString)
    (list : List (LangPackEmoji Emoji)) (new : List (Result Emoji)) : Prop where
  append_eq : appendFoundEmoji oneByOne results label list = results ++ new
  mem : ∀ r ∈ new, r.label = label ∧ r.emoji ∉ results.map Result.emoji ∧
    ⟨r.emoji, r.replacement⟩ ∈ list
  found : ∀ e ∈ list, e.emoji ∈ (results ++ new).map Result.emoji
  once : oneByOne = true ∨ (list.map LangPackEmoji.emoji).Nodup → (new.map Result.emoji).Nodup

theorem exists_added (oneByOne : Bool) (results : List (Result Emoji)) (label : QString)
    (list : List (LangPackEmoji Emoji)) : ∃ new, Added oneByOne results label list new := by
  induction list using List.reverseRecOn with
  | nil => exact ⟨[], by simp [appendFoundEmoji], by simp, by simp, by simp⟩
  | append_singleton list e ih =>
    obtain ⟨new, happend, hmem, hfound, honce⟩ := ih
    have hstep : appendFoundEmoji oneByOne results label (list ++ [e]) =
        if e.emoji ∈ (if oneByOne then results ++ new else results).map Result.emoji then
          results ++ new
        else results ++ new ++ [⟨e.emoji, label, e.text⟩] := by
      rw [appendFoundEmoji, List.foldl_append, ← appendFoundEmoji, happend]
      rfl
    have hlist : oneByOne = true ∨ ((list ++ [e]).map LangPackEmoji.emoji).Nodup →
        (new.map Result.emoji).Nodup := by
      intro h
      apply honce
      refine h.imp id ?_
      intro hnodup
      rw [List.map_append] at hnodup
      exact (List.nodup_append.mp hnodup).1
    by_cases htest : e.emoji ∈ (if oneByOne then results ++ new else results).map Result.emoji
    · refine ⟨new, by rw [hstep, if_pos htest], ?_, ?_, hlist⟩
      · intro r hr
        obtain ⟨hlabel, hnew, hentry⟩ := hmem r hr
        exact ⟨hlabel, hnew, List.mem_append_left _ hentry⟩
      · intro e' he'
        cases List.mem_append.mp he' with
        | inl hold => exact hfound e' hold
        | inr hlast =>
          rw [List.mem_singleton.mp hlast]
          cases oneByOne with
          | true => exact htest
          | false =>
            rw [List.map_append]
            exact List.mem_append_left _ htest
    · have hnotMem : e.emoji ∉ results.map Result.emoji := by
        intro hold
        apply htest
        cases oneByOne with
        | true =>
          rw [if_pos rfl, List.map_append]
          exact List.mem_append_left _ hold
        | false => exact hold
      refine ⟨new ++ [⟨e.emoji, label, e.text⟩], ?_, ?_, ?_, ?_⟩
      · rw [hstep, if_neg htest, List.append_assoc]
      · intro r hr
        cases List.mem_append.mp hr with
        | inl hold =>
          obtain ⟨hlabel, hnew, hentry⟩ := hmem r hold
          exact ⟨hlabel, hnew, List.mem_append_left _ hentry⟩
        | inr hlast =>
          rw [List.mem_singleton.mp hlast]
          exact ⟨rfl, hnotMem, List.mem_append_right _ (List.mem_singleton.mpr rfl)⟩
      · intro e' he'
        rw [← List.append_assoc, List.map_append]
        cases List.mem_append.mp he' with
        | inl hold => exact List.mem_append_left _ (hfound e' hold)
        | inr hlast =>
          rw [List.mem_singleton.mp hlast]
          exact List.mem_append_right _ (List.mem_singleton.mpr rfl)
      · intro h
        rw [List.map_append, List.nodup_append]
        refine ⟨hlist h, by simp, ?_⟩
        intro emoji hold emoji' hlast heq
        rw [List.map_singleton, List.mem_singleton] at hlast
        rw [heq, hlast] at hold
        cases oneByOne with
        | true =>
          apply htest
          rw [if_pos rfl, List.map_append]
          exact List.mem_append_right _ hold
        | false =>
          obtain ⟨r, hr, hemoji⟩ := List.mem_map.mp hold
          have hentry := (hmem r hr).2.2
          have hnodup := h.resolve_left Bool.false_ne_true
          rw [List.map_append, List.nodup_append] at hnodup
          exact hnodup.2.2 _ (List.mem_map_of_mem hentry) e.emoji (by simp) hemoji

def found (oneByOne : Bool) (pairs : List (QString × List (LangPackEmoji Emoji))) :
    List (Result Emoji) :=
  pairs.foldl (fun results pair => appendFoundEmoji oneByOne results pair.1 pair.2) []

/-- What the results for keys in their order are. -/
structure Found (oneByOne : Bool) (pairs : List (QString × List (LangPackEmoji Emoji)))
    (results : List (Result Emoji)) : Prop where
  once : oneByOne = true ∨ (∀ pair ∈ pairs, (pair.2.map LangPackEmoji.emoji).Nodup) →
    (results.map Result.emoji).Nodup
  mem : ∀ r ∈ results, ∃ pair ∈ pairs, r.label = pair.1 ∧ ⟨r.emoji, r.replacement⟩ ∈ pair.2
  found : ∀ pair ∈ pairs, ∀ e ∈ pair.2, e.emoji ∈ results.map Result.emoji
  first : ∀ r ∈ results, ∀ pair ∈ pairs, ∀ e ∈ pair.2, e.emoji = r.emoji →
    compare r.label pair.1 ≠ .gt
  inOrder : results.Pairwise fun r r' => compare r.label r'.label ≠ .gt

theorem found_found (hsorted : pairs.Pairwise fun a b => compare a.1 b.1 = .lt) :
    Found oneByOne pairs (found oneByOne pairs) := by
  induction pairs using List.reverseRecOn with
  | nil => constructor <;> simp [found]
  | append_singleton pairs pair ih =>
    obtain ⟨hpairs, -, hlast⟩ := List.pairwise_append.mp hsorted
    obtain ⟨honce, hmem, hfound, hfirst, hinOrder⟩ := ih hpairs
    obtain ⟨new, hadded⟩ := exists_added oneByOne (found oneByOne pairs) pair.1 pair.2
    have hstep : found oneByOne (pairs ++ [pair]) = found oneByOne pairs ++ new := by
      rw [← hadded.append_eq, found, List.foldl_append]
      rfl
    rw [hstep]
    have hle : ∀ r ∈ found oneByOne pairs, compare r.label pair.1 = .lt := by
      intro r hr
      obtain ⟨other, hother, hlabel, -⟩ := hmem r hr
      rw [hlabel]
      exact hlast other hother pair (List.mem_singleton.mpr rfl)
    constructor
    · intro h
      rw [List.map_append, List.nodup_append]
      refine ⟨honce (h.imp id fun hall other hother => hall other (by simp [hother])),
        hadded.once (h.imp id fun hall => hall pair (by simp)), ?_⟩
      intro emoji hold emoji' hnew heq
      obtain ⟨r, hr, rfl⟩ := List.mem_map.mp hnew
      rw [heq] at hold
      exact (hadded.mem r hr).2.1 hold
    · intro r hr
      cases List.mem_append.mp hr with
      | inl hold =>
        obtain ⟨other, hother, horigin⟩ := hmem r hold
        exact ⟨other, List.mem_append_left _ hother, horigin⟩
      | inr hnew =>
        obtain ⟨hlabel, -, hentry⟩ := hadded.mem r hnew
        exact ⟨pair, by simp, hlabel, hentry⟩
    · intro other hother e he
      cases List.mem_append.mp hother with
      | inl hold =>
        rw [List.map_append]
        exact List.mem_append_left _ (hfound other hold e he)
      | inr hother =>
        rw [List.mem_singleton.mp hother] at he
        exact hadded.found e he
    · intro r hr other hother e he hemoji
      cases List.mem_append.mp hr with
      | inl hold =>
        cases List.mem_append.mp hother with
        | inl hother => exact hfirst r hold other hother e he hemoji
        | inr hother =>
          rw [List.mem_singleton.mp hother, hle r hold]
          decide
      | inr hnew =>
        obtain ⟨hlabel, hnotMem, -⟩ := hadded.mem r hnew
        cases List.mem_append.mp hother with
        | inl hother =>
          -- the emoji would have been found already
          have hold := hfound other hother e he
          rw [hemoji] at hold
          exact absurd hold hnotMem
        | inr hother =>
          rw [List.mem_singleton.mp hother, hlabel]
          simp
    · rw [List.pairwise_append]
      refine ⟨hinOrder, ?_, ?_⟩
      · rw [List.pairwise_iff_forall_sublist]
        intro r r' hsublist
        have hr := (hadded.mem r (hsublist.subset (by simp))).1
        have hr' := (hadded.mem r' (hsublist.subset (by simp))).1
        rw [hr, hr']
        simp
      · intro r hr r' hr'
        rw [(hadded.mem r' hr').1, hle r hr]
        decide

theorem prefix_foldl (oneByOne : Bool) (pairs : List (QString × List (LangPackEmoji Emoji)))
    (results : List (Result Emoji)) :
    results <+: pairs.foldl
      (fun results pair => appendFoundEmoji oneByOne results pair.1 pair.2) results := by
  induction pairs generalizing results with
  | nil => exact List.prefix_refl results
  | cons pair pairs ih =>
    obtain ⟨new, hadded⟩ := exists_added oneByOne results pair.1 pair.2
    refine List.IsPrefix.trans ?_ (ih _)
    show results <+: appendFoundEmoji oneByOne results pair.1 pair.2
    rw [hadded.append_eq]
    exact List.prefix_append results new

theorem appendFoundEmoji_nil (label : QString) : (appendFoundEmoji false [] label list).map
    Result.emoji = list.map LangPackEmoji.emoji := by
  induction list using List.reverseRecOn with
  | nil => rfl
  | append_singleton list e ih =>
    rw [appendFoundEmoji, List.foldl_append, ← appendFoundEmoji]
    simp [ih]

/-! ### Queries -/

theorem query_eq (h : data.WellFormed env) {id : QString}
    (hskip : (exact && skipExactKeyword id normalized) = false) :
    data.query oneByOne id normalized exact = found oneByOne (chosen data normalized exact) := by
  by_cases hshort : (decide (normalized.length > data.maxKeyLength) || data.emoji.isEmpty) = true
  · have hnone : chosen data normalized exact = [] := by
      rw [chosen_eq_filter, List.filter_eq_nil_iff]
      intro pair hpair hchosen
      have hmem : pair.1 ∈ data.emoji :=
        ExtTreeMap.mem_of_getElem?_eq_some (ExtTreeMap.mem_toList_iff_getElem?_eq_some.mp hpair)
      have hlength := h.length_le hmem
      have hle := isChosen_length hchosen
      rw [Bool.or_eq_true, decide_eq_true_eq] at hshort
      cases hshort with
      | inl hlong => omega
      | inr hempty =>
        rw [ExtTreeMap.isEmpty_iff.mp hempty] at hmem
        exact ExtTreeMap.not_mem_empty hmem
    rw [LangPackData.query, hshort, hnone]
    rfl
  · rw [LangPackData.query, hskip, Bool.or_false, if_neg hshort]
    rfl

omit [DecidableEq Emoji] in
theorem mem_words_iff (h : data.WellFormed env) {pair : QString × QString} :
    pair ∈ words data.emoji ∧ env.entry pair.2 = some entry ↔
      entry ∈ entriesOf data.emoji pair.1 ∧ entry.text = pair.2 := by
  constructor
  · rintro ⟨⟨other, hother, htext⟩, hentry⟩
    have heq := h.entry_eq pair.1 other hother
    rw [htext, hentry, Option.some.injEq] at heq
    rw [heq]
    exact ⟨hother, htext⟩
  · rintro ⟨hmem, htext⟩
    exact ⟨⟨entry, hmem, htext⟩, by rw [← htext, h.entry_eq pair.1 entry hmem]⟩

omit [DecidableEq Emoji] in
theorem exists_chosen_iff : (∃ pair ∈ chosen data normalized exact, pair.1 = key ∧ entry ∈ pair.2) ↔
    isChosen normalized exact key ∧ entry ∈ entriesOf data.emoji key := by
  rw [chosen_eq_filter]
  constructor
  · rintro ⟨pair, hpair, rfl, hmem⟩
    obtain ⟨hpair, hchosen⟩ := List.mem_filter.mp hpair
    rw [entriesOf_of_some (ExtTreeMap.mem_toList_iff_getElem?_eq_some.mp hpair)]
    exact ⟨hchosen, hmem⟩
  · rintro ⟨hchosen, hmem⟩
    cases hlist : data.emoji[key]? with
    | none => simp [entriesOf, hlist] at hmem
    | some list =>
      rw [entriesOf_of_some hlist] at hmem
      exact ⟨(key, list), List.mem_filter.mpr
        ⟨ExtTreeMap.mem_toList_iff_getElem?_eq_some.mpr hlist, hchosen⟩, rfl, hmem⟩

/-- A query answers from the words of the pack, as soon as no emoji is in the results twice. -/
theorem answers_query (h : data.WellFormed env) {id : QString}
    (hskip : (exact && skipExactKeyword id normalized) = false)
    (honce : ((data.query oneByOne id normalized exact).map Result.emoji).Nodup) :
    Answers env (words data.emoji) normalized exact (data.query oneByOne id normalized exact) := by
  rw [query_eq h hskip] at honce ⊢
  obtain ⟨-, hmem, hfound, hfirst, hinOrder⟩ := @found_found _ oneByOne _ _
    (@chosen_sorted _ data normalized exact)
  have hresult : ∀ r ∈ found oneByOne (chosen data normalized exact),
      isChosen normalized exact r.label ∧ (r.label, r.replacement) ∈ words data.emoji ∧
        env.entry r.replacement = some ⟨r.emoji, r.replacement⟩ := by
    intro r hr
    obtain ⟨pair, hpair, hlabel, hentry⟩ := hmem r hr
    obtain ⟨hchosen, hentry⟩ := exists_chosen_iff.mp ⟨pair, hpair, hlabel.symm, hentry⟩
    have hword : (r.label, r.replacement) ∈ words data.emoji := ⟨_, hentry, rfl⟩
    exact ⟨hchosen, hword, h.entry_eq _ _ hentry⟩
  constructor
  · exact honce
  · intro emoji
    constructor
    · intro hemoji
      obtain ⟨r, hr, rfl⟩ := List.mem_map.mp hemoji
      obtain ⟨hchosen, hword, hentry⟩ := hresult r hr
      exact ⟨(r.label, r.replacement), hword, hchosen, _, hentry, rfl⟩
    · rintro ⟨pair, hword, hchosen, entry, hentry, rfl⟩
      have hentry := ((mem_words_iff h).mp ⟨hword, hentry⟩).1
      obtain ⟨other, hother, -, hentry⟩ := exists_chosen_iff.mpr ⟨hchosen, hentry⟩
      exact hfound other hother entry hentry
  · intro r hr
    obtain ⟨hchosen, hword, hentry⟩ := hresult r hr
    exact ⟨hword, hchosen, hentry⟩
  · intro r hr pair hword hchosen hentry
    have hentry := ((mem_words_iff h).mp ⟨hword, hentry⟩).1
    obtain ⟨other, hother, hkey, hentry⟩ := exists_chosen_iff.mpr ⟨hchosen, hentry⟩
    rw [← hkey]
    exact hfirst r hr other hother _ hentry rfl
  · exact hinOrder

def DistinctEmoji (data : LangPackData Emoji) : Prop :=
  ∀ key, ((entriesOf data.emoji key).map LangPackEmoji.emoji).Nodup

omit [DecidableEq Emoji] in
theorem chosen_self (hlist : data.emoji[key]? = some list) :
    ∃ rest, chosen data key false = (key, list) :: rest := by
  have hmem : (key, list) ∈ chosen data key false := by
    rw [chosen_eq_filter]
    exact List.mem_filter.mpr ⟨ExtTreeMap.mem_toList_iff_getElem?_eq_some.mpr hlist,
      isChosen_false.mpr List.prefix_rfl⟩
  have hsorted := @chosen_sorted _ data key false
  obtain ⟨before, rest, heq⟩ := List.append_of_mem hmem
  refine ⟨rest, ?_⟩
  rw [heq, List.pairwise_append] at hsorted
  have hnone : before = [] := by
    rw [List.eq_nil_iff_forall_not_mem]
    intro pair hpair
    have hchosen : pair ∈ chosen data key false := by
      rw [heq]
      exact List.mem_append_left _ hpair
    rw [chosen_eq_filter] at hchosen
    exact PrefixSearch.not_lt_of_prefix (isChosen_false.mp (List.mem_filter.mp hchosen).2)
      (hsorted.2.2 pair hpair (key, list) List.mem_cons_self)
  rw [heq, hnone, List.nil_append]

/-- Every query answers from the words if and only if the entries are appended one by one or the
emoji of every list differ. -/
theorem answers_iff (h : data.WellFormed env) (oneByOne : Bool) (id : QString) :
    (∀ normalized exact, (exact && skipExactKeyword id normalized) = false →
      Answers env (words data.emoji) normalized exact
        (data.query oneByOne id normalized exact)) ↔
      oneByOne = true ∨ DistinctEmoji data := by
  constructor
  · intro hall
    rw [or_iff_not_imp_left, Bool.not_eq_true]
    rintro rfl key
    cases hlist : data.emoji[key]? with
    | none => simp [entriesOf, hlist]
    | some list =>
      obtain ⟨rest, heq⟩ := chosen_self hlist
      have honce := (hall key false rfl).once
      rw [query_eq h rfl, heq, found, List.foldl_cons] at honce
      have hfirst := (prefix_foldl false rest (appendFoundEmoji false [] key list)).sublist.map
        Result.emoji
      rw [entriesOf_of_some hlist, ← appendFoundEmoji_nil key]
      exact hfirst.nodup honce
  · intro honce normalized exact hskip
    apply answers_query h hskip
    rw [query_eq h hskip]
    refine (found_found chosen_sorted).once (honce.imp_right ?_)
    intro hdistinct pair hpair
    rw [chosen_eq_filter] at hpair
    have hlist := ExtTreeMap.mem_toList_iff_getElem?_eq_some.mp (List.mem_filter.mp hpair).1
    rw [← entriesOf_of_some hlist]
    exact hdistinct pair.1

end

end TelegramClient.ChatHelpers
