import TelegramClient.Support.TemplateIndex

/-! What the index of the templates holds, when it is computed and when the part of a file is
replaced. -/

namespace TelegramClient.Support

open Text Std SortedLists

variable {qt : SearchQt} {data : TemplatesData} {index result source : TemplatesIndex}
  {path : QString} {file : TemplatesFile} {id : Id} {term : Term} {terms terms' : Id → Term → Prop}

/-- The tables hold these terms of these questions. -/
structure Indexes (index : TemplatesIndex) (terms : Id → Term → Prop) : Prop where
  first : Lists compare index.first fun ch id => ∃ term, terms id term ∧ firstOf term.1 = ch
  full : Lists compare index.full terms
  tight : ∀ id : Id, index.full[id]? ≠ some []

/-- A term of a question of the data. -/
def HasTerm (qt : SearchQt) (data : TemplatesData) (id : Id) (term : Term) : Prop :=
  ∃ question, data.questionById id = some question ∧ term ∈ question.terms qt

theorem Indexes.congr (h : Indexes index terms) (hiff : ∀ id term, terms id term ↔ terms' id term) :
    Indexes index terms' where
  first := h.first.congr fun _ id => exists_congr fun term => and_congr_left fun _ => hiff id term
  full := h.full.congr hiff
  tight := h.tight

/-! ### The computed index -/

theorem Indexes.pushWord (h : Indexes index terms) (id : Id) (term : Term) :
    Indexes (index.pushWord id term) fun id' term' => terms id' term' ∨ id' = id ∧ term' = term where
  first := by
    refine (h.first.put (firstOf term.1) id).congr fun ch id' => ?_
    constructor
    · rintro (⟨term', hterm, hch⟩ | ⟨hch, hid⟩)
      · exact ⟨term', .inl hterm, hch⟩
      · exact ⟨term, .inr ⟨hid, rfl⟩, hch.symm⟩
    · rintro ⟨term', hterm | ⟨hid, rfl⟩, hch⟩
      · exact .inl ⟨term', hterm, hch⟩
      · exact .inr ⟨hch.symm, hid⟩
  full := h.full.put id term
  tight := by
    intro id' hnil
    have hmem : term ∈ emplace compare term (index.full[id]?.getD []) := mem_emplace.mpr (.inl rfl)
    have hfull : (index.pushWord id term).full = put compare index.full id term := rfl
    rw [hfull, put, ExtTreeMap.getElem?_insert] at hnil
    split at hnil
    · rw [Option.some.inj hnil] at hmem
      cases hmem
    · exact h.tight id' hnil

/-- All terms, in the order in which they are pushed. -/
def TemplatesData.entries (qt : SearchQt) (data : TemplatesData) : List (Id × Term) :=
  data.files.toList.flatMap fun p => p.2.questions.toList.flatMap fun q =>
    (q.2.terms qt).map fun term => ((p.1, q.1), term)

theorem pushQuestion_eq (index : TemplatesIndex) (id : Id) (question : TemplatesQuestion) :
    index.pushQuestion qt id question =
      (question.terms qt).foldl (fun index term => index.pushWord id term) index := by
  simp only [TemplatesIndex.pushQuestion, TemplatesIndex.pushString, TemplatesQuestion.terms,
    List.foldl_append, List.foldl_flatMap, List.foldl_map]

theorem computeIndex_eq (data : TemplatesData) :
    computeIndex qt data =
      (data.entries qt).foldl (fun index e => index.pushWord e.1 e.2) {} := by
  simp only [computeIndex, TemplatesData.entries, List.foldl_flatMap, List.foldl_map,
    pushQuestion_eq]

theorem questionById_eq_some {question : TemplatesQuestion} :
    data.questionById id = some question ↔
      ∃ file, data.files[id.1]? = some file ∧ file.questions[id.2]? = some question :=
  Option.bind_eq_some_iff

theorem mem_entries : (id, term) ∈ data.entries qt ↔ HasTerm qt data id term := by
  obtain ⟨path, normalized⟩ := id
  obtain ⟨word, weight⟩ := term
  simp only [TemplatesData.entries, HasTerm, List.mem_flatMap, List.mem_map, Prod.exists,
    ExtTreeMap.mem_toList_iff_getElem?_eq_some, questionById_eq_some, Prod.mk.injEq]
  constructor
  · rintro ⟨_, file, hfile, _, question, hquestion, _, _, hterm, ⟨rfl, rfl⟩, rfl, rfl⟩
    exact ⟨question, ⟨file, hfile, hquestion⟩, hterm⟩
  · rintro ⟨question, ⟨file, hfile, hquestion⟩, hterm⟩
    exact ⟨path, file, hfile, normalized, question, hquestion, word, weight, hterm, ⟨rfl, rfl⟩,
      rfl, rfl⟩

theorem Indexes.run (h : Indexes index terms) (entries : List (Id × Term)) :
    Indexes (entries.foldl (fun index e => index.pushWord e.1 e.2) index)
      fun id term => terms id term ∨ (id, term) ∈ entries := by
  induction entries generalizing index terms with
  | nil => exact h.congr fun id term => by simp
  | cons e entries ih =>
    refine (ih (h.pushWord e.1 e.2)).congr fun id term => ?_
    have heq : (id, term) = e ↔ id = e.1 ∧ term = e.2 := Prod.ext_iff
    rw [List.mem_cons, or_assoc, heq]

theorem indexes_computeIndex (data : TemplatesData) :
    Indexes (computeIndex qt data) (HasTerm qt data) := by
  have hstart : Indexes {} fun _ _ => False := by
    refine ⟨lists_empty.congr fun ch id => by simp, lists_empty, fun id => ?_⟩
    rw [ExtTreeMap.getElem?_empty]
    simp
  rw [computeIndex_eq]
  refine (hstart.run (data.entries qt)).congr fun id term => ?_
  rw [false_or, mem_entries]

/-! ### The replaced index -/

theorem eraseFile_eq {list : List Id} (h : Sorted compare list) (path : QString) :
    eraseFile path list = list.filter fun id => id.1 ≠ path := by
  have hcompare : ∀ a b : Id, compare a b = (compare a.1 b.1).then (compare a.2 b.2) := fun _ _ => rfl
  rw [eraseFile, takeWhile_append_dropWhile_eq_filter]
  · simp
  · intro a _ hbefore
    rw [beq_iff_eq, hcompare] at hbefore
    by_contra hpath
    have heq : a.1 = path := by simpa using hpath
    have hself : compare path path = .eq := ReflCmp.compare_self
    rw [heq, hself, Ordering.eq_then] at hbefore
    cases ha : a.2 with
    | nil => simp [ha] at hbefore
    | cons c cs => simp [ha] at hbefore
  · refine h.imp fun {a b} hab hb => ?_
    rw [beq_iff_eq] at hb ⊢
    exact TransCmp.lt_trans hab hb
  · refine h.imp fun {a b} hab hb => ?_
    have hpath : b.1 = path := by simpa using hb
    rw [hcompare, hpath] at hab
    rw [beq_iff_eq, hcompare]
    cases ha : compare a.1 path with
    | lt => exact .inl rfl
    | eq => exact .inr (by simpa using ha)
    | gt => simp [ha] at hab

theorem pairwise_keys {κ β : Type} [Ord κ] [TransOrd κ] [LawfulEqOrd κ]
    (t : ExtTreeMap κ β compare) : t.toList.Pairwise fun p q => p.1 ≠ q.1 :=
  t.distinct_keys_toList.imp fun hne heq => hne (by rw [heq]; exact ReflCmp.compare_self)

theorem full_replaceFileIndex (hpath : ∀ id : Id, source.full[id]? ≠ none → id.1 = path) (id : Id) :
    (replaceFileIndex result source path).full[id]? =
      if id.1 = path then source.full[id]? else result.full[id]? := by
  refine Option.ext fun list => ?_
  rw [replaceFileIndex, getElem?_foldl_insertIfNew _ (pairwise_keys _),
    ExtTreeMap.mem_toList_iff_getElem?_eq_some, ExtTreeMap.getElem?_filter']
  by_cases hid : id.1 = path
  · have hnone : (result.full[id]?).filter (fun _ => decide (id.1 ≠ path)) = none := by
      simp [hid]
    rw [hnone, if_pos hid]
    simp
  · have hnone : source.full[id]? = none := by
      by_contra hne
      exact hid (hpath id hne)
    have hself : (result.full[id]?).filter (fun _ => decide (id.1 ≠ path)) = result.full[id]? := by
      cases result.full[id]? <;> simp [hid]
    rw [hself, if_neg hid, hnone]
    simp

theorem first_replaceFileIndex (ch : QChar) :
    (replaceFileIndex result source path).first[ch]?.getD [] =
        eraseFile path (result.first[ch]?.getD []) ∧ source.first[ch]? = none ∨
      ∃ list, source.first[ch]? = some list ∧
        (replaceFileIndex result source path).first[ch]?.getD [] =
          sort compare (eraseFile path (result.first[ch]?.getD []) ++ list) := by
  have herase : ((result.first.map fun _ list => eraseFile path list)[ch]?).getD [] =
      eraseFile path (result.first[ch]?.getD []) := by
    rw [ExtTreeMap.getElem?_map]
    cases result.first[ch]? <;> rfl
  obtain ⟨hsome, hnone⟩ := getElem?_foldl_insert (fun old list => sort compare (old ++ list))
    (pairwise_keys source.first) (result.first.map fun _ list => eraseFile path list) ch
  cases hsource : source.first[ch]? with
  | none =>
    refine .inl ⟨?_, rfl⟩
    rw [← herase, ← hnone]
    · rfl
    · intro list hlist
      rw [ExtTreeMap.mem_toList_iff_getElem?_eq_some, hsource] at hlist
      cases hlist
  | some list =>
    refine .inr ⟨list, rfl, ?_⟩
    have hget := hsome list (ExtTreeMap.mem_toList_iff_getElem?_eq_some.mpr hsource)
    rw [herase] at hget
    rw [replaceFileIndex, hget]
    rfl

/-- The part of a file is replaced. -/
theorem Indexes.replace (h : Indexes result terms) (h' : Indexes source terms')
    (hpath : ∀ id term, terms' id term → id.1 = path) :
    Indexes (replaceFileIndex result source path) fun id term =>
      id.1 ≠ path ∧ terms id term ∨ terms' id term := by
  have hfull := @full_replaceFileIndex result source path
    fun id hne => by
      cases hlist : source.full[id]? with
      | none => exact absurd hlist hne
      | some list =>
        obtain ⟨term, hterm⟩ := List.exists_mem_of_ne_nil list fun hnil =>
          h'.tight id (by rw [hlist, hnil])
        refine hpath id term ((h'.full.mem id term).mp ?_)
        rw [hlist]
        exact hterm
  have hnew : ∀ (ch : QChar) (id : Id), id ∈ source.first[ch]?.getD [] ↔
      ∃ term, terms' id term ∧ firstOf term.1 = ch := h'.first.mem
  have hold : ∀ (ch : QChar) (id : Id), id ∈ eraseFile path (result.first[ch]?.getD []) ↔
      id.1 ≠ path ∧ ∃ term, terms id term ∧ firstOf term.1 = ch := by
    intro ch id
    rw [eraseFile_eq (h.first.sorted ch), List.mem_filter, h.first.mem, decide_eq_true_eq, and_comm]
  have hsorted : ∀ ch : QChar, Sorted compare (eraseFile path (result.first[ch]?.getD [])) := by
    intro ch
    rw [eraseFile_eq (h.first.sorted ch)]
    exact (h.first.sorted ch).filter _
  have hiff : ∀ (ch : QChar) (id : Id),
      (∃ term, (id.1 ≠ path ∧ terms id term ∨ terms' id term) ∧ firstOf term.1 = ch) ↔
        id ∈ eraseFile path (result.first[ch]?.getD []) ∨ id ∈ source.first[ch]?.getD [] := by
    intro ch id
    rw [hold, hnew]
    constructor
    · rintro ⟨term, ⟨hid, hterm⟩ | hterm, hch⟩
      · exact .inl ⟨hid, term, hterm, hch⟩
      · exact .inr ⟨term, hterm, hch⟩
    · rintro (⟨hid, term, hterm, hch⟩ | ⟨term, hterm, hch⟩)
      · exact ⟨term, .inl ⟨hid, hterm⟩, hch⟩
      · exact ⟨term, .inr hterm, hch⟩
  refine ⟨⟨fun ch => ?_, fun ch id => ?_⟩, ?_, ?_⟩
  · rcases @first_replaceFileIndex result source path ch with
      ⟨hget, -⟩ | ⟨list, hlist, hget⟩
    · rw [hget]
      exact hsorted ch
    · have hlistSorted := h'.first.sorted ch
      rw [hlist, Option.getD_some] at hlistSorted
      rw [hget]
      refine sorted_sort (List.nodup_append.mpr ⟨(hsorted ch).nodup, hlistSorted.nodup, ?_⟩)
      -- the questions of the file were erased
      rintro id hid _ hid' rfl
      obtain ⟨hne, -⟩ := (hold ch id).mp hid
      have hmem : id ∈ source.first[ch]?.getD [] := by
        rw [hlist]
        exact hid'
      obtain ⟨term, hterm, -⟩ := (hnew ch id).mp hmem
      exact hne (hpath id term hterm)
  · rw [hiff]
    rcases @first_replaceFileIndex result source path ch with
      ⟨hget, hnone⟩ | ⟨list, hlist, hget⟩
    · rw [hget, hnone]
      simp
    · rw [hget, hlist, mem_sort, List.mem_append]
      rfl
  · constructor
    · intro id
      rw [hfull]
      split
      · exact h'.full.sorted id
      · exact h.full.sorted id
    · intro id term
      rw [hfull]
      split
      · next hid => simp [h'.full.mem, hid]
      · next hid =>
        have hnot : ¬terms' id term := fun hterm => hid (hpath id term hterm)
        simp [h.full.mem, hid, hnot]
  · intro id
    rw [hfull]
    split
    · exact h'.tight id
    · exact h.tight id

/-! ### Changes of the data -/

/-- `data.files[path] = file` -/
def TemplatesData.replace (data : TemplatesData) (path : QString) (file : TemplatesFile) :
    TemplatesData where
  files := data.files.insert path file

/-- `{ path: file }` -/
def TemplatesData.single (path : QString) (file : TemplatesFile) : TemplatesData where
  files := (∅ : ExtTreeMap QString TemplatesFile compare).insert path file

theorem hasTerm_replace :
    HasTerm qt (data.replace path file) id term ↔
      id.1 ≠ path ∧ HasTerm qt data id term ∨ HasTerm qt (.single path file) id term := by
  have hget : ∀ data : TemplatesData, (data.replace path file).questionById id =
      if id.1 = path then file.questions[id.2]? else data.questionById id := by
    intro data
    rw [TemplatesData.questionById, TemplatesData.replace, ExtTreeMap.getElem?_insert]
    by_cases hid : id.1 = path
    · simp [hid]
    · have hne : compare path id.1 ≠ .eq := fun heq => hid (LawfulEqCmp.eq_of_compare heq).symm
      rw [if_neg hne, if_neg hid]
      rfl
  have hsingle : TemplatesData.single path file = TemplatesData.replace {} path file := rfl
  have hempty : ({} : TemplatesData).questionById id = none := by
    simp [TemplatesData.questionById]
  rw [HasTerm, HasTerm, HasTerm, hsingle, hget, hget, hempty]
  by_cases hid : id.1 = path <;> simp [hid]

/-- The index of some data, computed or with parts replaced. -/
inductive Computed (qt : SearchQt) : TemplatesData → TemplatesIndex → Prop
  | compute (data : TemplatesData) : Computed qt data (computeIndex qt data)
  | replace {data : TemplatesData} {index : TemplatesIndex} (h : Computed qt data index)
    (path : QString) (file : TemplatesFile) :
    Computed qt (data.replace path file)
      (replaceFileIndex index (computeIndex qt (.single path file)) path)

theorem Computed.indexes (h : Computed qt data index) : Indexes index (HasTerm qt data) := by
  induction h with
  | compute data => exact indexes_computeIndex data
  | replace h path file ih =>
    refine (ih.replace (indexes_computeIndex (.single path file)) ?_).congr fun id term => ?_
    · rintro id term ⟨question, hquestion, -⟩
      obtain ⟨file', hfile, -⟩ := questionById_eq_some.mp hquestion
      rw [TemplatesData.single, ExtTreeMap.getElem?_insert] at hfile
      split at hfile
      · next heq => exact (LawfulEqCmp.eq_of_compare heq).symm
      · simp at hfile
    · exact hasTerm_replace.symm

/-- The tables are the same, but for empty lists in the first one. -/
structure SameIndex (index index' : TemplatesIndex) : Prop where
  full : index.full = index'.full
  first : ∀ ch : QChar, index.first[ch]?.getD [] = index'.first[ch]?.getD []

theorem Indexes.same (h : Indexes index terms) (h' : Indexes result terms) :
    SameIndex index result where
  full := h.full.eq h'.full h.tight h'.tight
  first := h.first.getD_eq h'.first

end TelegramClient.Support
