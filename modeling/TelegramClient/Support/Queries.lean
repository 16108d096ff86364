import TelegramClient.Support.IndexChanges

/-! Questions are found by the index as they are among all questions. -/

namespace TelegramClient.Support

open Text Std SortedLists

variable {qt : SearchQt} {data : TemplatesData} {index : TemplatesIndex} {id : Id} {term : Term}
  {full terms : List Term} {word : QString} {words : List QString}

/-! ### Words and terms -/

theorem ne_nil_of_mem_words {query : QString} (h : word ∈ prepareSearchWords qt query) :
    word ≠ [] := by
  rw [prepareSearchWords] at h
  split at h
  · cases h
  · simpa using (List.mem_filter.mp h).2

theorem pos_of_mem_terms {question : TemplatesQuestion} (h : term ∈ question.terms qt) :
    0 < term.2 := by
  simp only [TemplatesQuestion.terms, List.mem_append, List.mem_flatMap, List.mem_map] at h
  rcases h with (⟨_, _, _, _, rfl⟩ | ⟨_, _, rfl⟩) | ⟨_, _, rfl⟩ <;> simp [kWeightStep]

theorem firstOf_of_prefix (hne : word ≠ []) {found : QString} (h : word <+: found) :
    firstOf found = firstOf word := by
  obtain ⟨rest, rfl⟩ := h
  cases word with
  | nil => exact absurd rfl hne
  | cons ch word => rfl

/-- Every word begins a term. -/
def matched (terms : List Term) (words : List QString) : Bool :=
  words.all fun word => terms.any fun term => word.isPrefixOf term.1

theorem maxElement_eq_none : maxElement full = none ↔ full = [] := by
  cases full with
  | nil => simp [maxElement]
  | cons a rest =>
    rw [maxElement]
    cases maxElement rest with
    | none => simp
    | some b =>
      dsimp only
      split <;> simp

theorem maxElement_eq_some {best : Term} (h : maxElement full = some best) :
    ∃ before behind, full = before ++ best :: behind ∧ (∀ b ∈ before, b.2 < best.2) ∧
      ∀ b ∈ behind, b.2 ≤ best.2 := by
  induction full generalizing best with
  | nil => cases h
  | cons a rest ih =>
    rw [maxElement] at h
    cases hrest : maxElement rest with
    | none =>
      rw [hrest] at h
      cases h
      rw [maxElement_eq_none.mp hrest]
      exact ⟨[], [], rfl, by simp, by simp⟩
    | some b =>
      obtain ⟨before, behind, hsplit, hbefore, hbehind⟩ := ih hrest
      rw [hrest] at h
      dsimp only at h
      split at h
      · next hlt =>
        cases h
        refine ⟨a :: before, behind, by rw [hsplit, List.cons_append], fun c hc => ?_, hbehind⟩
        rcases List.mem_cons.mp hc with rfl | hc
        · exact hlt
        · exact hbefore c hc
      · next hle =>
        cases h
        refine ⟨[], rest, rfl, by simp, fun c hc => ?_⟩
        rw [hsplit, List.mem_append, List.mem_cons] at hc
        rcases hc with hc | rfl | hc
        · have := hbefore c hc
          omega
        · omega
        · have := hbehind c hc
          omega

/-- The terms that begin with a word stand together. -/
theorem range_eq_filter (h : Sorted compare full) (word : QString) :
    ((full.dropWhile fun term => compare term.1 word == .lt).takeWhile fun term =>
        word.isPrefixOf term.1) = full.filter fun term => word.isPrefixOf term.1 := by
  have hfirst : ∀ {a b : Term}, compare a b = .lt → compare a.1 b.1 ≠ .gt := by
    intro a b hab hgt
    have hpair : compare a b = (compare a.1 b.1).then (compare a.2 b.2) := rfl
    rw [hpair, hgt] at hab
    cases hab
  refine PrefixSearch.takeWhile_dropWhile_eq_filter ?_ ?_ ?_
  · intro a _ hbefore
    rw [beq_iff_eq] at hbefore
    rw [← Bool.not_eq_true, List.isPrefixOf_iff_prefix]
    exact fun hpre => PrefixSearch.not_lt_of_prefix hpre hbefore
  · refine h.imp fun {a b} hab hb => ?_
    rw [beq_iff_eq] at hb ⊢
    exact TransCmp.lt_of_isLE_of_lt (Ordering.isLE_iff_ne_gt.mpr (hfirst hab)) hb
  · refine h.imp fun {a b} hab hb => ?_
    by_cases ha : compare a.1 word = .lt
    · exact .inl (beq_iff_eq.mpr ha)
    · rw [List.isPrefixOf_iff_prefix] at hb ⊢
      exact .inr (PrefixSearch.prefix_of_between ha (hfirst hab) hb)

/-- The best term of a word, and whether it is the word. -/
theorem wordWeight_eq (h : Sorted compare full) (hmem : ∀ term, term ∈ full ↔ term ∈ terms)
    (hmatched : terms.any fun term => word.isPrefixOf term.1) :
    wordWeight full word = some (bestWeight terms word) := by
  have hrange := range_eq_filter h word
  cases hbest : maxElement (full.filter fun term => word.isPrefixOf term.1) with
  | none =>
    rw [maxElement_eq_none, List.filter_eq_nil_iff] at hbest
    obtain ⟨term, hterm, hpre⟩ := List.any_eq_true.mp hmatched
    exact absurd hpre (hbest term ((hmem term).mpr hterm))
  | some best =>
    obtain ⟨before, behind, hsplit, hbefore, hbehind⟩ := maxElement_eq_some hbest
    have hin : best ∈ full.filter fun term => word.isPrefixOf term.1 := by
      rw [hsplit]
      simp
    obtain ⟨hfull, hpre⟩ := List.mem_filter.mp hin
    have hmax : ((terms.filter fun term => word.isPrefixOf term.1).map Prod.snd).max? =
        some best.2 := by
      rw [List.max?_eq_some_iff]
      refine ⟨List.mem_map_of_mem (List.mem_filter.mpr ⟨(hmem best).mp hfull, hpre⟩), ?_⟩
      intro weight hweight
      obtain ⟨term, hterm, rfl⟩ := List.mem_map.mp hweight
      obtain ⟨hterm, hterm'⟩ := List.mem_filter.mp hterm
      have hsorted : term ∈ before ++ best :: behind :=
        hsplit ▸ List.mem_filter.mpr ⟨(hmem term).mpr hterm, hterm'⟩
      rw [List.mem_append, List.mem_cons] at hsorted
      rcases hsorted with hterm | rfl | hterm
      · exact (hbefore term hterm).le
      · exact le_rfl
      · exact hbehind term hterm
    have hexact : best.1 = word ↔ (word, best.2) ∈ terms := by
      constructor
      · rintro rfl
        exact (hmem best).mp hfull
      · intro hword
        have hin' : (word, best.2) ∈ before ++ best :: behind :=
          hsplit ▸ List.mem_filter.mpr ⟨(hmem _).mpr hword, by simp⟩
        have hchain : Sorted compare (before ++ best :: behind) := hsplit ▸ h.filter _
        rw [List.mem_append, List.mem_cons] at hin'
        rcases hin' with hin' | heq | hin'
        · exact absurd (hbefore _ hin') (lt_irrefl _)
        · rw [← heq]
        · -- the word is before all terms that begin with it
          have hlt := (List.pairwise_cons.mp (List.pairwise_append.mp hchain).2.1).1 _ hin'
          have hpair : compare best (word, best.2) =
              (compare best.1 word).then (compare best.2 best.2) := rfl
          have hnot := PrefixSearch.not_lt_of_prefix (List.isPrefixOf_iff_prefix.mp hpre)
          have hself : compare best.2 best.2 = .eq := ReflCmp.compare_self
          rw [hpair, hself] at hlt
          cases hcmp : compare best.1 word with
          | lt => exact absurd hcmp hnot
          | eq => exact LawfulEqCmp.eq_of_compare hcmp
          | gt => simp [hcmp] at hlt
    rw [wordWeight]
    rw [hrange, hbest, Option.map_some, bestWeight]
    rw [hmax, Option.getD_some]
    by_cases hword : best.1 = word
    · rw [if_pos hword, if_pos (hexact.mp hword), mul_comm]
    · rw [if_neg hword, if_neg fun hterm => hword (hexact.mpr hterm), mul_one]

theorem wordWeight_eq_none (h : Sorted compare full) (hmem : ∀ term, term ∈ full ↔ term ∈ terms)
    (hmatched : ¬terms.any fun term => word.isPrefixOf term.1) : wordWeight full word = none := by
  rw [wordWeight]
  rw [range_eq_filter h, Option.map_eq_none_iff, maxElement_eq_none, List.filter_eq_nil_iff]
  intro term hterm hpre
  exact hmatched (List.any_eq_true.mpr ⟨term, (hmem term).mp hterm, hpre⟩)

theorem bestWeight_pos (hpos : ∀ term ∈ terms, 0 < term.2)
    (hmatched : terms.any fun term => word.isPrefixOf term.1) : 0 < bestWeight terms word := by
  obtain ⟨term, hterm, hpre⟩ := List.any_eq_true.mp hmatched
  have hin : term.2 ∈ (terms.filter fun term => word.isPrefixOf term.1).map Prod.snd :=
    List.mem_map_of_mem (List.mem_filter.mpr ⟨hterm, hpre⟩)
  have hbest : 0 < ((terms.filter fun term => word.isPrefixOf term.1).map Prod.snd).max?.getD 0 := by
    cases hmax : ((terms.filter fun term => word.isPrefixOf term.1).map Prod.snd).max? with
    | none =>
      rw [List.max?_eq_none_iff.mp hmax] at hin
      cases hin
    | some best =>
      have hle := (List.max?_eq_some_iff.mp hmax).2 _ hin
      have := hpos term hterm
      rw [Option.getD_some]
      omega
  rw [bestWeight]
  split <;> omega

theorem totalWeight_nonneg (hpos : ∀ term ∈ terms, 0 < term.2) (hmatched : matched terms words) :
    0 ≤ totalWeight terms words := by
  refine List.sum_nonneg fun weight hweight => ?_
  obtain ⟨word, hword, rfl⟩ := List.mem_map.mp hweight
  exact (bestWeight_pos hpos (List.all_eq_true.mp hmatched word hword)).le

theorem totalWeight_cons (word : QString) (words : List QString) :
    totalWeight terms (word :: words) = bestWeight terms word + totalWeight terms words := by
  simp [totalWeight]

theorem totalWeight_pos (hpos : ∀ term ∈ terms, 0 < term.2) (hmatched : matched terms words)
    (hne : words ≠ []) : 0 < totalWeight terms words := by
  cases words with
  | nil => exact absurd rfl hne
  | cons word words =>
    rw [matched, List.all_cons, Bool.and_eq_true] at hmatched
    have hword := bestWeight_pos hpos hmatched.1
    have hrest := totalWeight_nonneg hpos hmatched.2
    rw [totalWeight_cons]
    omega

/-- The weights are added, while the sum fits. -/
theorem computeWeight_eq (h : Sorted compare full) (hmem : ∀ term, term ∈ full ↔ term ∈ terms)
    (hpos : ∀ term ∈ terms, 0 < term.2) (hmatched : matched terms words) {result : Int}
    (hresult : 0 ≤ result) (hbound : result + totalWeight terms words < 2 ^ 31) :
    computeWeight full words result = result + totalWeight terms words := by
  induction words generalizing result with
  | nil => simp [computeWeight, totalWeight]
  | cons word words ih =>
    rw [matched, List.all_cons, Bool.and_eq_true] at hmatched
    have hword := bestWeight_pos hpos hmatched.1
    have hrest := totalWeight_nonneg hpos hmatched.2
    rw [totalWeight_cons] at hbound ⊢
    have hwrap : Export.wrap (result + bestWeight terms word) = result + bestWeight terms word :=
      Export.wrap_of_lt (by omega) (by omega)
    rw [computeWeight, wordWeight_eq h hmem hmatched.1]
    dsimp only
    rw [hwrap, ih hmatched.2 (by omega) (by omega), add_assoc]

theorem computeWeight_eq_zero (h : Sorted compare full) (hmem : ∀ term, term ∈ full ↔ term ∈ terms)
    (hmatched : ¬matched terms words) (result : Int) : computeWeight full words result = 0 := by
  induction words generalizing result with
  | nil => exact absurd rfl hmatched
  | cons word words ih =>
    rw [computeWeight]
    by_cases hword : terms.any fun term => word.isPrefixOf term.1
    · rw [wordWeight_eq h hmem hword]
      refine ih (fun hrest => hmatched ?_) _
      rw [matched, List.all_cons, hword, Bool.true_and]
      exact hrest
    · rw [wordWeight_eq_none h hmem hword]

/-! ### The order -/

/-- The order of the answer, as a comparison. -/
def comparePairs : Id × Int → Id × Int → Ordering :=
  compareLex (fun a b => compareOn Prod.snd b a)
    (compareLex (fun a b => compareOn (Prod.fst ∘ Prod.fst) b a) (compareOn (Prod.snd ∘ Prod.fst)))

instance : TransCmp comparePairs :=
  inferInstanceAs (TransCmp (compareLex (fun a b => compareOn Prod.snd b a)
    (compareLex (fun a b => compareOn (Prod.fst ∘ Prod.fst) b a)
      (compareOn (Prod.snd ∘ Prod.fst)))))

instance : LawfulEqCmp comparePairs where
  eq_of_compare {a b} h := by
    simp only [comparePairs, compareLex_eq_eq, compareOn] at h
    obtain ⟨hweight, hfile, hquestion⟩ := h
    exact Prod.ext (Prod.ext (LawfulEqCmp.eq_of_compare hfile).symm
      (LawfulEqCmp.eq_of_compare hquestion)) (LawfulEqCmp.eq_of_compare hweight).symm

theorem sorter_iff (a b : Id × Int) : sorter a b ↔ comparePairs a b = .lt := by
  have hpairs : comparePairs a b = (compare b.2 a.2).then
      ((compare b.1.1 a.1.1).then (compare a.1.2 b.1.2)) := rfl
  have hfile : compare a.1.1 b.1.1 = (compare b.1.1 a.1.1).swap := OrientedCmp.eq_swap
  rw [hpairs, sorter, hfile]
  rcases Int.lt_trichotomy b.2 a.2 with hlt | heq | hgt
  · rw [if_pos hlt, compare_lt_iff_lt.mpr hlt]
    simp
  · have hself : compare a.2 a.2 = .eq := ReflCmp.compare_self
    rw [if_neg (by omega), if_neg (by omega), heq, hself]
    cases compare b.1.1 a.1.1 <;> simp
  · rw [if_neg (by omega), if_pos hgt, compare_gt_iff_gt.mpr hgt]
    simp

/-- The answer is sorted in one way only. -/
theorem stableSort_eq_of_perm {pairs pairs' : List (Id × Int)} (hnodup : pairs.Nodup)
    (h : pairs.Perm pairs') : stableSort pairs = stableSort pairs' := by
  have hsort : ∀ l, stableSort l = sort comparePairs l := by
    intro l
    have hrel : ∀ a b : Id × Int, (!sorter b a) = true ↔ comparePairs a b ≠ .gt := by
      intro a b
      have hswap : comparePairs b a = (comparePairs a b).swap := OrientedCmp.eq_swap
      rw [Bool.not_eq_true', ← Bool.not_eq_true, sorter_iff, hswap]
      cases comparePairs a b <;> simp
    have hmap := List.map_insertionSort (fun a b : Id × Int => (!sorter b a) = true)
      (fun a b => comparePairs a b ≠ .gt) id l (fun a _ b _ => hrel a b)
    rw [List.map_id, List.map_id] at hmap
    exact hmap
  rw [hsort, hsort]
  refine (sorted_sort hnodup).eq_of_perm (sorted_sort (h.nodup_iff.mp hnodup)) ?_
  exact ((List.perm_insertionSort _ _).trans h).trans (List.perm_insertionSort _ _).symm

/-! ### The answer -/

theorem mapM_eq_some {α β : Type} {f : α → Option β} {l : List α} (h : ∀ a ∈ l, (f a).isSome) :
    l.mapM f = some (l.filterMap f) := by
  induction l with
  | nil => rfl
  | cons a l ih =>
    obtain ⟨ha, hl⟩ := List.forall_mem_cons.mp h
    obtain ⟨b, hb⟩ := Option.isSome_iff_exists.mp ha
    rw [List.mapM_cons, hb, ih hl, List.filterMap_cons_some hb]
    rfl

theorem mem_found {weight : Int} :
    (id, weight) ∈ data.found qt words ↔
      ∃ question, data.questionById id = some question ∧ matched (question.terms qt) words ∧
        totalWeight (question.terms qt) words = weight := by
  obtain ⟨path, normalized⟩ := id
  simp only [TemplatesData.found, List.mem_flatMap, List.mem_map, List.mem_filter, Prod.exists,
    ExtTreeMap.mem_toList_iff_getElem?_eq_some, questionById_eq_some, Prod.mk.injEq]
  constructor
  · rintro ⟨_, file, hfile, _, question, ⟨hquestion, hmatched⟩, ⟨rfl, rfl⟩, rfl⟩
    exact ⟨question, ⟨file, hfile, hquestion⟩, hmatched, rfl⟩
  · rintro ⟨question, ⟨file, hfile, hquestion⟩, hmatched, hweight⟩
    exact ⟨path, file, hfile, normalized, question, ⟨hquestion, hmatched⟩, ⟨rfl, rfl⟩, hweight⟩

theorem nodup_found : (data.found qt words).Nodup := by
  refine List.nodup_flatMap.mpr ⟨fun p _ => ?_, ?_⟩
  · refine List.Pairwise.map _ (fun q q' hne heq => hne ?_)
      ((pairwise_keys p.2.questions).filter _)
    exact congrArg (fun pair : Id × Int => pair.1.2) heq
  · refine (pairwise_keys data.files).imp fun {p p'} hne => ?_
    simp only [Function.onFun, List.disjoint_left, List.mem_map]
    rintro _ ⟨q, -, rfl⟩ ⟨q', -, heq⟩
    exact hne (congrArg (fun pair : Id × Int => pair.1.1) heq).symm

/-- What the tables have of a question with terms. -/
theorem Indexes.exists_full (h : Indexes index (HasTerm qt data)) (hterm : HasTerm qt data id term) :
    ∃ question full, data.questionById id = some question ∧ index.full[id]? = some full ∧
      Sorted compare full ∧ ∀ term, term ∈ full ↔ term ∈ question.terms qt := by
  have hmem := (h.full.mem id term).mpr hterm
  obtain ⟨question, hquestion, -⟩ := hterm
  cases hfull : index.full[id]? with
  | none =>
    rw [hfull] at hmem
    cases hmem
  | some full =>
    have hsorted := h.full.sorted id
    have hiff := h.full.mem id
    rw [hfull, Option.getD_some] at hsorted hiff
    refine ⟨question, full, hquestion, rfl, hsorted, fun term => (hiff term).trans ?_⟩
    rw [HasTerm, hquestion]
    simp

/-- The questions of the list with the rarest first letter that are good are those found. -/
theorem Indexes.good_perm (h : Indexes index (HasTerm qt data)) {best : QString}
    (hbest : best ∈ words) (hwords : ∀ word ∈ words, word ≠ [])
    (hbound : ∀ pair ∈ data.found qt words, pair.2 < 2 ^ 31) {narrowed : List Id}
    (hnarrowed : index.first[firstOf best]?.getD [] = narrowed) :
    ∃ pairs, (narrowed.mapM fun id =>
        (index.full[id]?).map fun full => (id, computeWeight full words 0)) = some pairs ∧
      (pairs.filter fun pair => pair.2 > 0).Perm (data.found qt words) := by
  have hin : ∀ id, id ∈ narrowed ↔ ∃ term, HasTerm qt data id term ∧ firstOf term.1 = firstOf best :=
    hnarrowed ▸ h.first.mem (firstOf best)
  have hsorted : Sorted compare narrowed := hnarrowed ▸ h.first.sorted (firstOf best)
  refine ⟨_, mapM_eq_some fun id hid => ?_, ?_⟩
  · obtain ⟨term, hterm, -⟩ := (hin id).mp hid
    obtain ⟨_, full, -, hfull, -⟩ := h.exists_full hterm
    rw [hfull]
    rfl
  have hnodup : (narrowed.filterMap fun id =>
      (index.full[id]?).map fun full => (id, computeWeight full words 0)).Nodup := by
    refine hsorted.nodup.filterMap fun id id' pair hpair hpair' => ?_
    obtain ⟨_, -, rfl⟩ := Option.map_eq_some_iff.mp hpair
    obtain ⟨_, -, heq⟩ := Option.map_eq_some_iff.mp hpair'
    exact (congrArg Prod.fst heq).symm
  refine (List.perm_ext_iff_of_nodup (hnodup.filter _) nodup_found).mpr ?_
  rintro ⟨id, weight⟩
  rw [List.mem_filter, List.mem_filterMap, mem_found]
  constructor
  · rintro ⟨⟨id', hid, hpair⟩, hpos⟩
    obtain ⟨full, hfull, heq⟩ := Option.map_eq_some_iff.mp hpair
    obtain ⟨rfl, rfl⟩ := Prod.mk.inj heq
    obtain ⟨term, hterm, -⟩ := (hin id').mp hid
    obtain ⟨question, full', hquestion, hfull', hsorted', hmem⟩ := h.exists_full hterm
    obtain rfl : full = full' := Option.some.inj (hfull.symm.trans hfull')
    by_cases hmatched : matched (question.terms qt) words
    · have hfound := mem_found.mpr ⟨question, hquestion, hmatched, rfl⟩
      refine ⟨question, hquestion, hmatched, ?_⟩
      rw [computeWeight_eq hsorted' hmem (fun _ => pos_of_mem_terms) hmatched le_rfl
        (by simpa using hbound _ hfound), zero_add]
    · rw [computeWeight_eq_zero hsorted' hmem hmatched] at hpos
      simp at hpos
  · rintro ⟨question, hquestion, hmatched, hweight⟩
    obtain ⟨term, hterm, hpre⟩ := List.any_eq_true.mp (List.all_eq_true.mp hmatched best hbest)
    have hhas : HasTerm qt data id term := ⟨question, hquestion, hterm⟩
    have hfirst := firstOf_of_prefix (hwords best hbest) (List.isPrefixOf_iff_prefix.mp hpre)
    obtain ⟨question', full, hquestion', hfull, hsorted', hmem⟩ := h.exists_full hhas
    obtain rfl : question = question' := Option.some.inj (hquestion.symm.trans hquestion')
    have hfound := mem_found.mpr ⟨question, hquestion, hmatched, hweight⟩
    have hpos := totalWeight_pos (fun _ => pos_of_mem_terms) hmatched (List.ne_nil_of_mem hbest)
    have hcompute := computeWeight_eq hsorted' hmem (fun _ => pos_of_mem_terms) hmatched le_rfl
      (by simpa [hweight] using hbound _ hfound)
    rw [zero_add, hweight] at hcompute
    refine ⟨⟨id, (hin id).mpr ⟨term, hhas, hfirst⟩, ?_⟩, ?_⟩
    · rw [hfull, Option.map_some, hcompute]
    · rw [hweight] at hpos
      exact decide_eq_true hpos

/-- The answer of an index of the data. -/
theorem Indexes.query (h : Indexes index (HasTerm qt data)) (text : QString)
    (hbound : ∀ pair ∈ data.found qt (prepareSearchWords qt text), pair.2 < 2 ^ 31) :
    index.query qt data text =
      some (if prepareSearchWords qt text = [] then []
        else data.search qt (prepareSearchWords qt text)) := by
  have hwords := fun word hword => @ne_nil_of_mem_words qt word text hword
  rw [TemplatesIndex.query]
  generalize prepareSearchWords qt text = words at hbound hwords
  dsimp only
  cases hmin : words.argmin index.questions with
  | none =>
    rw [List.argmin_eq_none.mp hmin]
    rfl
  | some best =>
    have hbest := List.argmin_mem hmin
    obtain ⟨pairs, hpairs, hperm⟩ := h.good_perm hbest hwords hbound rfl
    rw [if_neg (List.ne_nil_of_mem hbest)]
    dsimp only
    cases hnarrowed : index.first[firstOf best]? with
    | none =>
      rw [hnarrowed] at hpairs
      obtain rfl : [] = pairs := Option.some.inj hpairs
      have hnone : data.found qt words = [] := List.perm_nil.mp hperm.symm
      rw [TemplatesData.search, hnone]
      rfl
    | some narrowed =>
      rw [hnarrowed, Option.getD_some] at hpairs
      dsimp only
      rw [hpairs, TemplatesData.search]
      dsimp only [bind, Option.bind]
      rw [stableSort_eq_of_perm (hperm.nodup_iff.mpr nodup_found) hperm, ← List.map_take,
        mapM_eq_some, List.filterMap_map]
      · rfl
      · intro id hid
        obtain ⟨pair, hpair, rfl⟩ := List.mem_map.mp hid
        have hfound : (pair.1, pair.2) ∈ data.found qt words :=
          (List.mem_insertionSort _).mp (List.mem_of_mem_take hpair)
        obtain ⟨question, hquestion, -⟩ := mem_found.mp hfound
        rw [hquestion]
        rfl

/-! ### Updates and queries -/

/-- An index of some data is updated as if it was computed again, and a query finds the first of
the questions for which all words begin terms, when there are words and the weights fit. -/
theorem index_updates_query (h : Computed qt data index) :
    (∀ (path : QString) (file : TemplatesFile),
      SameIndex (replaceFileIndex index (computeIndex qt (.single path file)) path)
        (computeIndex qt (data.replace path file))) ∧
    ∀ text : QString,
      (∀ pair ∈ data.found qt (prepareSearchWords qt text), pair.2 < 2 ^ 31) →
      index.query qt data text =
        some (if prepareSearchWords qt text = [] then []
          else data.search qt (prepareSearchWords qt text)) :=
  ⟨fun path file => (h.replace path file).indexes.same (indexes_computeIndex _),
    h.indexes.query⟩

/-- Words of Latin letters. -/
def asciiSearchQt : SearchQt where
  toQt := asciiQt
  splitWords clean := (clean.splitOnP fun ch => !asciiQt.isLetterOrNumber ch).filter (· ≠ [])

/-- A file with one question. -/
def helloData : TemplatesData :=
  .single (qstr "tl_en.txt")
    { questions := (∅ : Questions).insert (qstr "hello")
        { question := qstr "Hello", value := qstr "Hi there" } }

theorem index_updates_query_hello :
    (computeIndex asciiSearchQt helloData).query asciiSearchQt helloData (qstr "th hi") =
      some [{ question := qstr "Hello", value := qstr "Hi there" }] := by
  rw [(index_updates_query (.compute helloData)).2 (qstr "th hi") (by decide)]
  decide

/-- Every word of a text without words begins a term, and nothing is found. -/
theorem query_without_words :
    ¬ ∀ (data : TemplatesData) (text : QString),
      (computeIndex asciiSearchQt data).query asciiSearchQt data text =
        some (data.search asciiSearchQt (prepareSearchWords asciiSearchQt text)) := by
  intro hall
  have hempty := hall helloData []
  have hsearch : helloData.search asciiSearchQt (prepareSearchWords asciiSearchQt []) =
      [{ question := qstr "Hello", value := qstr "Hi there" }] := by decide
  rw [hsearch] at hempty
  have hquery : (computeIndex asciiSearchQt helloData).query asciiSearchQt helloData [] =
      some [] := rfl
  rw [hquery] at hempty
  simp at hempty

end TelegramClient.Support
