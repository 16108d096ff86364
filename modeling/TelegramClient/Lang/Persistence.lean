import TelegramClient.Lib.TreeMap
import TelegramClient.Lang.Layers
import TelegramClient.Lang.Serialization

/-! A language pack that is saved and filled again: the strings alone tell what is shown, as
long as no string that is not parsed takes the place of one that was. -/

namespace TelegramClient.Lang

variable {LangKey : Type} [DecidableEq LangKey] (g : LangFile LangKey)

/-- The strings of a pack give the values last set in it. -/
structure Exact (last : LangKey → Option QString) (p : PackData LangKey) : Prop where
  flags : Flags last p
  stored : ∀ index text, last index = some text ↔ ∃ key value,
    p.nonDefaultValues[key]? = some value ∧ parseKeyValue g key value = some (index, text)
  plain : ∀ key value, p.nonDefaultValues[key]? = some value → keyIndexOf g key ≠ none → 0 ∉ key

/-- A string that is not parsed is not set where its pack has a value. -/
def ParsedOrUnset (p : PackData LangKey) : Change → Prop
  | .set key value => ∀ index ∈ keyIndexOf g key, parse g index value = none →
      p.nonDefaultSet index = false
  | .reset _ => True

/-- A change is kept by the saved strings. -/
def Persistable (s : Instance LangKey) (pack : Pack) (change : Change) : Prop :=
  Plain g s pack change ∧ ∀ p ∈ s.data pack, ParsedOrUnset g p change

instance (p : PackData LangKey) (change : Change) : Decidable (ParsedOrUnset g p change) :=
  match change with
  | .set _ _ => inferInstanceAs (Decidable (∀ _ ∈ _, _ → _))
  | .reset _ => instDecidableTrue

instance (s : Instance LangKey) (pack : Pack) (change : Change) :
    Decidable (Persistable g s pack change) :=
  inferInstanceAs (Decidable (_ ∧ ∀ _ ∈ _, _))

section Steps

variable {g} {last : LangKey → Option QString} {p q : PackData LangKey} {key value : List UInt8}

omit [DecidableEq LangKey] in
theorem Exact.unique {last' : LangKey → Option QString} (h : Exact g last p)
    (h' : Exact g last' q) (hvalues : p.nonDefaultValues = q.nonDefaultValues) : last = last' := by
  funext index
  apply Option.ext
  intro text
  rw [h.stored, h'.stored, hvalues]

omit [DecidableEq LangKey] in
theorem Exact.flags_unique (h : Exact g last p) (h' : Exact g last q) :
    p.nonDefaultSet = q.nonDefaultSet := by
  funext index
  rw [h.flags index, h'.flags index]

omit [DecidableEq LangKey] in
theorem parseKeyValue_index {index : LangKey} {text : QString}
    (h : parseKeyValue g key value = some (index, text)) : keyIndexOf g key = some index :=
  ((parseKeyValue_eq_some g).mp h).1

omit [DecidableEq LangKey] in
theorem exact_set_plain (hplain : keyIndexOf g key ≠ none → 0 ∉ key) (h : Exact g last p) :
    ∀ key' value', (p.nonDefaultValues.insert key value)[key']? = some value' →
      keyIndexOf g key' ≠ none → 0 ∉ key' := by
  intro key' value' hget
  by_cases hne : key = key'
  · subst hne
    exact hplain
  · rw [Std.ExtTreeMap.getElem?_insert] at hget
    simp only [Std.compare_eq_iff_eq, hne, if_false] at hget
    exact h.plain key' value' hget

theorem exact_set_parsed {index : LangKey} {text : QString}
    (hparse : parseKeyValue g key value = some (index, text))
    (hplain : keyIndexOf g key ≠ none → 0 ∉ key) (h : Exact g last p) :
    Exact g (remember g last (.set key value)) (p.applied g (.set key value)) := by
  have hkey := parseKeyValue_index hparse
  have hzero := hplain (by simp [hkey])
  simp only [remember_set_some hparse, PackData.applied, hparse]
  refine ⟨h.flags.set, ?_, exact_set_plain hplain h⟩
  intro index' text'
  by_cases hindex : index' = index
  · subst hindex
    rw [Function.update_self]
    constructor
    · intro htext
      exact ⟨key, value, by simp, by rw [hparse, ← Option.some.inj htext]⟩
    · rintro ⟨key', value', hget, hparse'⟩
      have heq : key = key' := by
        by_contra hne
        rw [Std.ExtTreeMap.getElem?_insert] at hget
        simp only [Std.compare_eq_iff_eq, hne, if_false] at hget
        have hkey' := parseKeyValue_index hparse'
        have hzero' := h.plain key' value' hget (by simp [hkey'])
        exact hne (keyIndexOf_unique g hzero hzero' hkey hkey')
      subst heq
      obtain rfl : value = value' := by simpa using hget
      rw [hparse] at hparse'
      simpa using hparse'
  · rw [Function.update_of_ne hindex, h.stored]
    have hne (key' value' : List UInt8) (hparse' : parseKeyValue g key' value' = some (index', text')) :
        key ≠ key' := by
      rintro rfl
      have hkey' := parseKeyValue_index hparse'
      rw [hkey] at hkey'
      exact hindex (Option.some.inj hkey').symm
    constructor
    · rintro ⟨key', value', hget, hparse'⟩
      refine ⟨key', value', ?_, hparse'⟩
      simpa [Std.ExtTreeMap.getElem?_insert, hne key' value' hparse'] using hget
    · rintro ⟨key', value', hget, hparse'⟩
      refine ⟨key', value', ?_, hparse'⟩
      simpa [Std.ExtTreeMap.getElem?_insert, hne key' value' hparse'] using hget

theorem exact_set_unparsed (hparse : parseKeyValue g key value = none)
    (hplain : keyIndexOf g key ≠ none → 0 ∉ key) (hunset : ParsedOrUnset g p (.set key value))
    (h : Exact g last p) :
    Exact g (remember g last (.set key value)) (p.applied g (.set key value)) := by
  simp only [remember_set_none hparse, PackData.applied, hparse]
  refine ⟨h.flags, ?_, exact_set_plain hplain h⟩
  intro index text
  rw [h.stored]
  constructor
  · rintro ⟨key', value', hget, hparse'⟩
    refine ⟨key', value', ?_, hparse'⟩
    have hne : key ≠ key' := by
      rintro rfl
      have hkey := parseKeyValue_index hparse'
      have hnone : parse g index value = none := by
        simpa [parseKeyValue, hkey] using hparse
      have hset := h.flags index
      rw [hunset index hkey hnone, (h.stored index text).mpr ⟨key, value', hget, hparse'⟩] at hset
      cases hset
    simpa [Std.ExtTreeMap.getElem?_insert, hne] using hget
  · rintro ⟨key', value', hget, hparse'⟩
    refine ⟨key', value', ?_, hparse'⟩
    have hne : key ≠ key' := by
      rintro rfl
      obtain rfl : value = value' := by simpa using hget
      rw [hparse] at hparse'
      cases hparse'
    simpa [Std.ExtTreeMap.getElem?_insert, hne] using hget

theorem exact_reset (hplain : keyIndexOf g key ≠ none → 0 ∉ key) (h : Exact g last p) :
    Exact g (remember g last (.reset key)) (p.applied g (.reset key)) := by
  have hzero : ∀ key' value', (p.nonDefaultValues.erase key)[key']? = some value' →
      keyIndexOf g key' ≠ none → 0 ∉ key' := by
    intro key' value' hget
    rw [Std.ExtTreeMap.getElem?_erase] at hget
    split at hget
    · cases hget
    · exact h.plain key' value' hget
  have hstored (index : LangKey) (text : QString) (hother : keyIndexOf g key ≠ some index) :
      last index = some text ↔ ∃ key' value', (p.nonDefaultValues.erase key)[key']? = some value' ∧
        parseKeyValue g key' value' = some (index, text) := by
    have hne (key' value' : List UInt8) (hparse' : parseKeyValue g key' value' = some (index, text)) :
        key ≠ key' := by
      rintro rfl
      exact hother (parseKeyValue_index hparse')
    rw [h.stored]
    constructor
    · rintro ⟨key', value', hget, hparse'⟩
      refine ⟨key', value', ?_, hparse'⟩
      simpa [Std.ExtTreeMap.getElem?_erase, hne key' value' hparse'] using hget
    · rintro ⟨key', value', hget, hparse'⟩
      refine ⟨key', value', ?_, hparse'⟩
      simpa [Std.ExtTreeMap.getElem?_erase, hne key' value' hparse'] using hget
  cases hkey : keyIndexOf g key with
  | none =>
    simp only [remember, PackData.applied, hkey]
    exact ⟨h.flags, fun index text => hstored index text (by simp [hkey]), hzero⟩
  | some index =>
    simp only [remember, PackData.applied, hkey]
    refine ⟨h.flags.reset, ?_, hzero⟩
    intro index' text
    by_cases hindex : index' = index
    · subst hindex
      rw [Function.update_self]
      constructor
      · intro htext
        cases htext
      · rintro ⟨key', value', hget, hparse'⟩
        have hkey' := parseKeyValue_index hparse'
        have heq : key = key' := by
          apply keyIndexOf_unique g (hplain (by simp [hkey])) _ hkey hkey'
          exact hzero key' value' hget (by simp [hkey'])
        subst heq
        simp at hget
    · rw [Function.update_of_ne hindex]
      apply hstored
      rw [hkey]
      intro heq
      exact hindex (Option.some.inj heq).symm

theorem exact_applied {s : Instance LangKey} {pack : Pack} {change : Change}
    (hpersist : Persistable g s pack change) (hp : s.data pack = some p) (h : Exact g last p) :
    Exact g (remember g last change) (p.applied g change) := by
  cases change with
  | set key value =>
    cases hparse : parseKeyValue g key value with
    | none => exact exact_set_unparsed hparse hpersist.1 (hpersist.2 p hp) h
    | some r => exact exact_set_parsed hparse hpersist.1 h
  | reset key => exact exact_reset (fun hkey => (hpersist.1 hkey).1) h

end Steps

/-! ## Both packs -/

/-- What is shown and what is saved come from the values last set in the two packs. -/
structure Kept (last : Last LangKey) (s : Instance LangKey) : Prop where
  layered : Layered g (last .current) (last .base) s
  exact : ∀ pack p, s.data pack = some p → Exact g (last pack) p

def PersistableChanges (pack : Pack) : List Change → Instance LangKey → Prop
  | [], _ => True
  | change :: changes, s =>
    Persistable g s pack change ∧ PersistableChanges pack changes (s.applyChange g pack change)

instance decidablePersistableChanges (pack : Pack) (changes : List Change)
    (s : Instance LangKey) : Decidable (PersistableChanges g pack changes s) :=
  match changes with
  | [] => instDecidableTrue
  | change :: changes =>
    have := decidablePersistableChanges pack changes (s.applyChange g pack change)
    inferInstanceAs (Decidable (_ ∧ _))

section Packs

variable {g} {last : Last LangKey} {s s' : Instance LangKey} {pack : Pack}

theorem kept_change {change : Change} (hb : (s.data pack).isSome)
    (hpersist : Persistable g s pack change) (h : Kept g last s) :
    Kept g (Function.update last pack (remember g (last pack) change))
      (s.applyChange g pack change) := by
  refine ⟨layered_change hb hpersist.1 h.layered, ?_⟩
  intro other p hp
  by_cases hother : other = pack
  · subst hother
    rw [Instance.data_applyChange] at hp
    obtain ⟨q, hq, rfl⟩ := Option.map_eq_some_iff.mp hp
    rw [Function.update_self]
    exact exact_applied hpersist hq (h.exact other q hq)
  · rw [Instance.data_applyChange_of_ne change hother] at hp
    rw [Function.update_of_ne hother]
    exact h.exact other p hp

theorem kept_changes {changes : List Change} (hb : (s.data pack).isSome)
    (hpersist : PersistableChanges g pack changes s) (h : Kept g last s) :
    Kept g (Function.update last pack (changes.foldl (remember g) (last pack)))
      (s.applyChanges g pack changes) := by
  induction changes generalizing s last with
  | nil => simpa [Instance.applyChanges] using h
  | cons change changes ih =>
    obtain ⟨hfirst, hrest⟩ := hpersist
    have hb' : ((s.applyChange g pack change).data pack).isSome := by
      rw [Instance.data_applyChange, Option.isSome_map]
      exact hb
    have hall := ih hb' hrest (kept_change hb hfirst h)
    simp only [Function.update_self, Function.update_idem] at hall
    exact hall

omit [DecidableEq LangKey] in
theorem kept_modify {f : PackData LangKey → PackData LangKey}
    (hset : ∀ p, (f p).nonDefaultSet = p.nonDefaultSet)
    (hvalues : ∀ p, (f p).nonDefaultValues = p.nonDefaultValues) (h : Kept g last s) :
    Kept g last (s.modify pack f) := by
  refine ⟨layered_modify hset hvalues h.layered, ?_⟩
  intro other p hp
  by_cases hother : other = pack
  · subst hother
    rw [Instance.data_modify] at hp
    obtain ⟨q, hq, rfl⟩ := Option.map_eq_some_iff.mp hp
    have hexact := h.exact other q hq
    constructor
    · intro index
      rw [hset]
      exact hexact.flags index
    · rw [hvalues]
      exact hexact.stored
    · rw [hvalues]
      exact hexact.plain
  · rw [Instance.data_modify_of_ne hother] at hp
    exact h.exact other p hp

omit [DecidableEq LangKey] in
theorem kept_untouched (h : Untouched g s) : Kept g (fun _ _ => none) s := by
  refine ⟨layered_untouched h, ?_⟩
  have hempty {p : PackData LangKey} (hflags : ∀ index, p.nonDefaultSet index = false)
      (hstrings : p.nonDefaultValues = ∅) : Exact g (fun _ => none) p := by
    constructor
    · intro index
      simp [hflags index]
    · simp [hstrings]
    · simp [hstrings]
  intro pack p hp
  cases pack with
  | current =>
    obtain rfl := Option.some.inj hp
    exact hempty h.flags h.strings
  | base => exact hempty (h.baseFlags p hp) (h.baseStrings p hp)

omit [DecidableEq LangKey] in
theorem Kept.unique {last' : Last LangKey} (h : Kept g last s) (h' : Kept g last' s')
    (hme : s.me = s'.me) (hbase : s.base = s'.base) : s = s' := by
  have hcurrent : last .current = last' .current :=
    (h.exact .current s.me rfl).unique (h'.exact .current s'.me rfl) (by rw [hme])
  have hlast : last .base = last' .base := by
    cases hb : s.base with
    | none =>
      funext index
      rw [h.layered.noBase hb, h'.layered.noBase (by rw [← hbase, hb])]
    | some b =>
      exact (h.exact .base b hb).unique (h'.exact .base b (by rw [← hb]; exact hbase.symm)) rfl
  have hvalues : s.values = s'.values := by
    funext index
    rw [h.layered.values index, h'.layered.values index, hcurrent, hlast]
  obtain ⟨me, base, values⟩ := s
  obtain ⟨me', base', values'⟩ := s'
  simp only at hme hbase hvalues
  rw [hme, hbase, hvalues]

end Packs

/-! ## Filling one pack -/

def setChange (nonDefault : List UInt8 × List UInt8) : Change :=
  .set nonDefault.1 nonDefault.2

section Filling

variable {g} {last : Last LangKey} {s : Instance LangKey} {pack : Pack}
  {strings : List (List UInt8 × List UInt8)}

omit [DecidableEq LangKey] in
theorem persistable_set {key value : List UInt8} (h : Kept g last s)
    (hplain : keyIndexOf g key ≠ none → 0 ∉ key)
    (hfree : ∀ p, s.data pack = some p → p.nonDefaultValues[key]? = none) :
    Persistable g s pack (.set key value) := by
  refine ⟨hplain, ?_⟩
  intro p hp index hindex _
  have hexact := h.exact pack p hp
  rw [hexact.flags index]
  by_contra hset
  obtain ⟨text, htext⟩ := Option.isSome_iff_exists.mp (Bool.not_eq_false _ ▸ hset)
  obtain ⟨key', value', hget, hparse⟩ := (hexact.stored index text).mp htext
  have hkey' := parseKeyValue_index hparse
  have hzero := hplain (Option.ne_none_iff_exists'.mpr ⟨index, hindex⟩)
  have hzero' := hexact.plain key' value' hget (by simp [hkey'])
  have heq := keyIndexOf_unique g hzero hzero' hindex hkey'
  rw [← heq, hfree p hp] at hget
  cases hget

theorem persistable_sets (h : Kept g last s) (hb : (s.data pack).isSome)
    (hdistinct : strings.Pairwise fun a b => a.1 ≠ b.1)
    (hplain : ∀ nonDefault ∈ strings, keyIndexOf g nonDefault.1 ≠ none → 0 ∉ nonDefault.1)
    (hfree : ∀ p, s.data pack = some p → ∀ nonDefault ∈ strings,
      p.nonDefaultValues[nonDefault.1]? = none) :
    PersistableChanges g pack (strings.map setChange) s := by
  induction strings generalizing s last with
  | nil => trivial
  | cons nonDefault strings ih =>
    rw [List.pairwise_cons] at hdistinct
    rw [List.forall_mem_cons] at hplain
    have hfirst : Persistable g s pack (setChange nonDefault) :=
      persistable_set h hplain.1 fun p hp => hfree p hp nonDefault List.mem_cons_self
    have hdata : (s.applyChange g pack (setChange nonDefault)).data pack =
        (s.data pack).map fun p => p.applied g (setChange nonDefault) :=
      Instance.data_applyChange _
    refine ⟨hfirst, ih (kept_change hb hfirst h) ?_ hdistinct.2 hplain.2 ?_⟩
    · rw [hdata, Option.isSome_map]
      exact hb
    · intro p hp other hother
      rw [hdata] at hp
      obtain ⟨q, hq, rfl⟩ := Option.map_eq_some_iff.mp hp
      have hne := hdistinct.1 other hother
      have hnone := hfree q hq other (List.mem_cons_of_mem _ hother)
      simpa [setChange, PackData.applied, Std.ExtTreeMap.getElem?_insert, hne] using hnone

theorem foldl_applied_sets (p : PackData LangKey) :
    ∃ flags, (strings.map setChange).foldl (PackData.applied g) p =
      { p with
        nonDefaultValues :=
          strings.foldl (fun m nonDefault => m.insert nonDefault.1 nonDefault.2) p.nonDefaultValues
        nonDefaultSet := flags } := by
  induction strings generalizing p with
  | nil => exact ⟨p.nonDefaultSet, rfl⟩
  | cons nonDefault strings ih =>
    obtain ⟨flags, h⟩ := ih (p.applied g (setChange nonDefault))
    exact ⟨flags, h⟩

omit [DecidableEq LangKey] in
theorem fillFields_data {p q : PackData LangKey} (files : CustomFiles)
    (hq : s.data pack = some q) (hid : p.id ≠ customLanguageId) :
    (s.fillFields files pack p.header p.pluralId).data pack =
      some { p with nonDefaultValues := q.nonDefaultValues, nonDefaultSet := q.nonDefaultSet } := by
  rw [Instance.fillFields, Instance.data_modify, hq, Option.map_some]
  simp [PackData.header, hid]

omit [DecidableEq LangKey] in
theorem updatePluralRules_of_ne {p : PackData LangKey} (pluralCode : QString → QString → QString)
    (h : p.pluralId ≠ []) : p.updatePluralRules pluralCode = p := by
  rw [PackData.updatePluralRules, if_neg h]

omit [DecidableEq LangKey] in
theorem kept_updatePluralRules (pluralCode : QString → QString → QString) (h : Kept g last s) :
    Kept g last (s.modify pack fun me => me.updatePluralRules pluralCode) := by
  apply kept_modify _ _ h
  · intro p
    rw [PackData.updatePluralRules]
    split <;> rfl
  · intro p
    rw [PackData.updatePluralRules]
    split <;> rfl

/-- The strings of a saved pack are applied to a pack with no strings. -/
theorem applyValues_saved {p q : PackData LangKey} {saved : LangKey → Option QString}
    (hsaved : Exact g saved p) (h : Kept g last s) (hq : s.data pack = some q)
    (hstrings : q.nonDefaultValues = ∅) (hlast : last pack = fun _ => none) :
    (s.applyValues g pack p.nonDefaultValues.toList).data pack =
        some { q with nonDefaultValues := p.nonDefaultValues, nonDefaultSet := p.nonDefaultSet } ∧
      Kept g (Function.update last pack saved)
        (s.applyValues g pack p.nonDefaultValues.toList) := by
  have hpersist : PersistableChanges g pack (p.nonDefaultValues.toList.map setChange) s := by
    apply persistable_sets h
    · simp [hq]
    · refine Std.ExtTreeMap.distinct_keys_toList.imp ?_
      intro a b hab heq
      exact hab (Std.compare_eq_iff_eq.mpr heq)
    · intro nonDefault hmem
      exact hsaved.plain _ nonDefault.2 (Std.ExtTreeMap.mem_toList_iff_getElem?_eq_some.mp hmem)
    · intro p' hp'
      obtain rfl : q = p' := by simpa [hq] using hp'
      simp [hstrings]
  have hkept := kept_changes (by simp [hq]) hpersist h
  have hdata : (s.applyValues g pack p.nonDefaultValues.toList).data pack =
      some ((p.nonDefaultValues.toList.map setChange).foldl (PackData.applied g) q) := by
    have hall : (s.applyValues g pack p.nonDefaultValues.toList).data pack = _ :=
      Instance.data_applyChanges (p.nonDefaultValues.toList.map setChange)
    rw [hq] at hall
    exact hall
  obtain ⟨flags, hflags⟩ := @foldl_applied_sets LangKey _ g p.nonDefaultValues.toList q
  rw [hstrings, ← Std.ExtTreeMap.ofList_eq_foldl, Std.ExtTreeMap.ofList_toList] at hflags
  rw [hflags] at hdata
  have hexact := hkept.exact pack _ hdata
  rw [Function.update_self, hlast] at hexact
  rw [hlast, hexact.unique hsaved rfl] at hkept
  rw [hexact.unique hsaved rfl] at hexact
  refine ⟨?_, hkept⟩
  rw [hdata, ← hexact.flags_unique hsaved]

theorem filled_pack {p q : PackData LangKey} {saved : LangKey → Option QString}
    (files : CustomFiles) (hsaved : Exact g saved p) (h : Kept g last s)
    (hq : s.data pack = some q) (hstrings : q.nonDefaultValues = ∅)
    (hlast : last pack = fun _ => none) (hid : p.id ≠ customLanguageId)
    (hpluralId : p.pluralId ≠ []) :
    let filled := ((s.fillFields files pack p.header p.pluralId).applyValues g pack
      p.nonDefaultValues.toList).modify pack fun me =>
        me.updatePluralRules files.pluralCodeForCustom
    filled.data pack = some p ∧ (∀ other, other ≠ pack → filled.data other = s.data other) ∧
      Kept g (Function.update last pack saved) filled := by
  have hfields := fillFields_data files hq hid
  have hkept : Kept g last (s.fillFields files pack p.header p.pluralId) :=
    kept_modify (fun _ => rfl) (fun _ => rfl) h
  obtain ⟨hdata, hall⟩ := applyValues_saved hsaved hkept hfields hstrings hlast
  refine ⟨?_, ?_, kept_updatePluralRules _ hall⟩
  · rw [Instance.data_modify, hdata, Option.map_some]
    exact congrArg some (updatePluralRules_of_ne _ hpluralId)
  · intro other hother
    rw [Instance.data_modify_of_ne hother, Instance.applyValues,
      Instance.data_applyChanges_of_ne _ hother, Instance.fillFields,
      Instance.data_modify_of_ne hother]

end Filling

/-! ## Runs -/

inductive Operation where
  | switchToId (data : Language)
  | applyDifference (pack : Pack) (difference : Difference)
  deriving DecidableEq, Repr

variable (files : CustomFiles)

namespace Instance

def runOperations : List Operation → Instance LangKey → Option (Instance LangKey)
  | [], s => some s
  | .switchToId data :: rest, _ =>
    runOperations rest (switchToId g files.pluralCodeForCustom data)
  | .applyDifference pack d :: rest, s => (s.applyDifference g pack d).bind (runOperations rest)

/-- The bytes fit an array, and neither pack has too many strings. -/
structure Fits (s : Instance LangKey) : Prop where
  me : s.me.Fits (s.base.elim [] fun base => base.serialize [])
  base : ∀ b ∈ s.base, b.nonDefaultValues.size ≤ 20000

end Instance

instance (s : Instance LangKey) : Decidable s.Fits :=
  decidable_of_iff (s.me.Fits (s.base.elim [] fun base => base.serialize []) ∧
      ∀ b ∈ s.base, b.nonDefaultValues.size ≤ 20000)
    ⟨fun h => ⟨h.1, h.2⟩, fun h => ⟨h.1, h.2⟩⟩

/-- Neither pack is a custom or a test language. -/
def Language.Usual (data : Language) : Prop :=
  data.id ≠ utf16 "#TEST_X" ∧ data.id ≠ utf16 "#TEST_0" ∧ data.id ≠ customLanguageId ∧
    data.baseId ≠ customLanguageId

/-- The strings of every step are kept by the saved strings. -/
def PersistableRun : List Operation → Instance LangKey → Prop
  | [], _ => True
  | .switchToId data :: rest, _ =>
    data.Usual ∧ PersistableRun rest (Instance.switchToId g files.pluralCodeForCustom data)
  | .applyDifference pack d :: rest, s =>
    PersistableChanges g pack d.changes (s.setVersion pack d.version) ∧
      PersistableRun rest ((s.setVersion pack d.version).applyChanges g pack d.changes)

instance (data : Language) : Decidable data.Usual :=
  inferInstanceAs (Decidable (_ ∧ _ ∧ _ ∧ _))

instance decidablePersistableRun (ops : List Operation) (s : Instance LangKey) :
    Decidable (PersistableRun g files ops s) :=
  match ops with
  | [] => instDecidableTrue
  | .switchToId data :: rest =>
    have := decidablePersistableRun rest (Instance.switchToId g files.pluralCodeForCustom data)
    inferInstanceAs (Decidable (_ ∧ _))
  | .applyDifference pack d :: rest =>
    have := decidablePersistableRun rest
      ((s.setVersion pack d.version).applyChanges g pack d.changes)
    inferInstanceAs (Decidable (_ ∧ _))

/-- A pack that is filled without a custom file. -/
def PackData.Usual (p : PackData LangKey) : Prop :=
  p.id ≠ customLanguageId ∧ p.customFilePathAbsolute = []

/-- What holds of every state of such a run. -/
structure Restorable (s : Instance LangKey) : Prop where
  kept : ∃ last, Kept g last s
  usual : ∀ pack p, s.data pack = some p → p.Usual
  base : ∀ b, s.base = some b → b.pluralId ≠ []

section Runs

variable {g} {files} {s s' : Instance LangKey}

omit [DecidableEq LangKey] in
theorem fresh_restorable : Restorable g (Instance.fresh g) := by
  refine ⟨⟨_, kept_untouched (fresh_untouched g)⟩, ?_, ?_⟩
  · intro pack p hp
    cases pack with
    | current =>
      obtain rfl := Option.some.inj hp
      have hid : ([] : QString) ≠ customLanguageId := by decide
      exact ⟨hid, rfl⟩
    | base => cases hp
  · intro b hb
    cases hb

omit [DecidableEq LangKey] in
theorem reset_usual {data : Language} (hid : data.id ≠ customLanguageId)
    (pluralCode : QString → QString → QString) :
    ((PackData.reset data : PackData LangKey).updatePluralRules pluralCode).Usual := by
  have hdefault : languageIdOrDefault data.id ≠ customLanguageId := by
    rw [languageIdOrDefault]
    split
    · exact hid
    · decide
  rw [PackData.updatePluralRules]
  split <;> exact ⟨hdefault, rfl⟩

omit [DecidableEq LangKey] in
theorem switchToId_base {pluralCode : QString → QString → QString} {data : Language}
    {b : PackData LangKey} (h : (Instance.switchToId g pluralCode data).base = some b) :
    data.baseId ≠ [] ∧ ∃ pluralId, b = (PackData.reset
      { id := data.baseId, pluralId : Language }).updatePluralRules pluralCode := by
  simp only [Instance.switchToId] at h
  split at h
  · cases h
  · rename_i hne
    exact ⟨hne, _, (Option.some.inj h).symm⟩

omit [DecidableEq LangKey] in
theorem reset_pluralId {data : Language} (hid : data.id ≠ [])
    (pluralCode : QString → QString → QString) :
    ((PackData.reset data : PackData LangKey).updatePluralRules pluralCode).pluralId ≠ [] := by
  have hne : (PackData.reset data : PackData LangKey).pluralId ≠ [] := by
    simp only [PackData.reset]
    split
    · assumption
    · split
      · assumption
      · exact hid
  rw [updatePluralRules_of_ne pluralCode hne]
  exact hne

omit [DecidableEq LangKey] in
theorem switchToId_restorable {pluralCode : QString → QString → QString} {data : Language}
    (h : data.Usual) : Restorable g (Instance.switchToId g pluralCode data) := by
  obtain ⟨hx, hzero, hid, hbase⟩ := h
  refine ⟨⟨_, kept_untouched (switchToId_untouched g pluralCode data ⟨hx, hzero⟩)⟩, ?_, ?_⟩
  · intro pack p hp
    cases pack with
    | current =>
      obtain rfl := Option.some.inj hp
      exact reset_usual hid pluralCode
    | base =>
      obtain ⟨_, pluralId, rfl⟩ := switchToId_base hp
      exact reset_usual hbase pluralCode
  · intro b hb
    obtain ⟨hne, pluralId, rfl⟩ := switchToId_base hb
    exact reset_pluralId hne pluralCode

theorem foldl_applied_usual {changes : List Change} {p : PackData LangKey} :
    (changes.foldl (PackData.applied g) p).id = p.id ∧
      (changes.foldl (PackData.applied g) p).pluralId = p.pluralId ∧
      (changes.foldl (PackData.applied g) p).customFilePathAbsolute = p.customFilePathAbsolute := by
  induction changes generalizing p with
  | nil => exact ⟨rfl, rfl, rfl⟩
  | cons change changes ih =>
    have h := ih (p := p.applied g change)
    cases change <;> exact h

theorem applyDifference_restorable {pack : Pack} {d : Difference} (h : Restorable g s)
    (hb : (s.data pack).isSome)
    (hpersist : PersistableChanges g pack d.changes (s.setVersion pack d.version)) :
    Restorable g ((s.setVersion pack d.version).applyChanges g pack d.changes) := by
  obtain ⟨⟨last, hkept⟩, husual, hbase⟩ := h
  have hversion : Kept g last (s.setVersion pack d.version) :=
    kept_modify (fun _ => rfl) (fun _ => rfl) hkept
  have hb' : ((s.setVersion pack d.version).data pack).isSome := by
    rw [Instance.setVersion, Instance.data_modify, Option.isSome_map]
    exact hb
  have hfields (other : Pack) (p : PackData LangKey)
      (hp : ((s.setVersion pack d.version).applyChanges g pack d.changes).data other = some p) :
      ∃ q, s.data other = some q ∧ p.id = q.id ∧ p.pluralId = q.pluralId ∧
        p.customFilePathAbsolute = q.customFilePathAbsolute := by
    by_cases hother : other = pack
    · subst hother
      rw [Instance.data_applyChanges, Instance.setVersion, Instance.data_modify,
        Option.map_map] at hp
      obtain ⟨q, hq, rfl⟩ := Option.map_eq_some_iff.mp hp
      exact ⟨q, hq, foldl_applied_usual⟩
    · rw [Instance.data_applyChanges_of_ne _ hother, Instance.setVersion,
        Instance.data_modify_of_ne hother] at hp
      exact ⟨p, hp, rfl, rfl, rfl⟩
  refine ⟨⟨_, kept_changes hb' hpersist hversion⟩, ?_, ?_⟩
  · intro other p hp
    obtain ⟨q, hq, hid, _, hpath⟩ := hfields other p hp
    have hq' := husual other q hq
    exact ⟨by rw [hid]; exact hq'.1, by rw [hpath]; exact hq'.2⟩
  · intro b hb
    obtain ⟨q, hq, _, hpluralId, _⟩ := hfields .base b hb
    rw [hpluralId]
    exact hbase q hq

theorem runOperations_restorable {ops : List Operation} (h : Restorable g s)
    (hpersist : PersistableRun g files ops s) (hrun : s.runOperations g files ops = some s') :
    Restorable g s' := by
  induction ops generalizing s with
  | nil =>
    obtain rfl : s = s' := by simpa [Instance.runOperations] using hrun
    exact h
  | cons op ops ih =>
    cases op with
    | switchToId data => exact ih (switchToId_restorable hpersist.1) hpersist.2 hrun
    | applyDifference pack d =>
      obtain ⟨s₁, hstep, hrun⟩ := Option.bind_eq_some_iff.mp hrun
      obtain ⟨hb, rfl⟩ := applyDifference_eq_some hstep
      exact ih (applyDifference_restorable h hb hpersist.1) hpersist.2 hrun

omit [DecidableEq LangKey] in
theorem serialize_ne_nil (p : PackData LangKey) (base : List UInt8) : p.serialize base ≠ [] := by
  intro h
  simp only [PackData.serialize, List.append_eq_nil_iff] at h
  have hversion := congrArg List.length h.1.1.1.1.1.1.1.1.1.1.1.2
  simp [DataStream.writeInt32, DataStream.length_writeUInt32] at hversion

omit [DecidableEq LangKey] in
theorem parts_fit_base {p b : PackData LangKey} (h : p.Fits (b.serialize []))
    (hsize : b.nonDefaultValues.size ≤ 20000) : b.Fits [] :=
  ⟨h.parts.base, hsize⟩

/-- A fresh instance whose base instance is filled from a saved base pack. -/
theorem filled_base {b : PackData LangKey} {saved : LangKey → Option QString}
    (hsaved : Exact g saved b) (husual : b.Usual) (hpluralId : b.pluralId ≠ [])
    (hfits : b.Fits []) :
    ∃ s, (Instance.fill g files (fun _ _ => none) { Instance.fresh g with base := some {} } .base
        (b.serialize [])) = some s ∧ s.base = some b ∧ s.me = (Instance.fresh g).me ∧
      Kept g (Function.update (fun _ _ => none) .base saved) s := by
  have huntouched : Untouched g { Instance.fresh g with base := some {} } := by
    constructor <;> simp [Instance.fresh]
  rw [fill_serialize g files hfits husual.2]
  have hempty : Instance.data { Instance.fresh g with base := some {} } .base = some {} := rfl
  obtain ⟨hdata, hother, hkept⟩ := filled_pack files hsaved (kept_untouched huntouched) hempty
    rfl rfl husual.1 hpluralId
  refine ⟨_, rfl, hdata, ?_, hkept⟩
  have hme := hother .current (by decide)
  exact Option.some.inj hme

/-- A fresh instance that is filled from the bytes of a pack is that pack, with all that it
shows. -/
theorem fillFromSerialized_serialize {ops : List Operation}
    (hpersist : PersistableRun g files ops (Instance.fresh g))
    (hrun : (Instance.fresh g).runOperations g files ops = some s)
    (hswitched : s.me.pluralId ≠ []) (hfits : s.Fits) :
    (Instance.fresh g).fillFromSerialized g files s.serialize = some s := by
  obtain ⟨⟨last, hkept⟩, husual, hbase⟩ :=
    runOperations_restorable fresh_restorable hpersist hrun
  have hme := hkept.exact .current s.me rfl
  have husualMe := husual .current s.me rfl
  rw [Instance.fillFromSerialized, Instance.serialize, fill_serialize g files hfits.me husualMe.2]
  cases hb : s.base with
  | none =>
    have hempty : Instance.data (Instance.fresh g) .current = some (Instance.fresh g).me := rfl
    obtain ⟨hdata, hother, hfilled⟩ := filled_pack files hme
      (kept_untouched (fresh_untouched g)) hempty rfl rfl husualMe.1 hswitched
    refine congrArg some (hfilled.unique hkept (Option.some.inj hdata) ?_)
    rw [hb]
    exact hother .base (by decide)
  | some b =>
    have hfitsBase : b.Fits [] := by
      have hfitsMe := hfits.me
      rw [hb] at hfitsMe
      exact parts_fit_base hfitsMe (hfits.base b hb)
    obtain ⟨s₁, hfill, hs₁, hmeFresh, hkeptBase⟩ := filled_base
      (hkept.exact .base b hb) (husual .base b hb) (hbase b hb) hfitsBase
    have hempty : s₁.data .current = some s₁.me := rfl
    obtain ⟨hdata, hother, hfilled⟩ := filled_pack files hme hkeptBase hempty
      (by rw [hmeFresh]; rfl) rfl husualMe.1 hswitched
    rw [Option.elim_some, if_pos (serialize_ne_nil b [])]
    have hfill' : Instance.fill g files (fun _ _ => none)
        { (Instance.fresh g).dropBase .current with base := some {} } .base (b.serialize []) =
          some s₁ := hfill
    rw [hfill', Option.map_some]
    refine congrArg some (hfilled.unique hkept (Option.some.inj hdata) ?_)
    rw [hb, ← hs₁]
    exact hother .base (by decide)

end Runs

/-- No custom files. -/
def sampleFiles : CustomFiles where
  readFile _ _ := []
  keyValues _ := []
  pluralCodeForCustom _ _ := []

/-- A string of the base pack, and strings of the current pack one after the other. -/
def sampleOperations (values : List String) : List Operation :=
  .switchToId { id := utf16 "de-x", pluralId := utf16 "de", baseId := utf16 "de" } ::
    .applyDifference .base ⟨utf16 "de", 0, 1, [.plain (ascii "lng_a") (ascii "{count} b")]⟩ ::
    values.map fun value =>
      .applyDifference .current ⟨utf16 "de-x", 0, 1, [.plain (ascii "lng_a") (ascii value)]⟩

theorem fillFromSerialized_serialize_sample :
    ∃ s, (Instance.fresh sampleFile).runOperations sampleFile sampleFiles
        (sampleOperations ["a"]) = some s ∧
      (Instance.fresh sampleFile).fillFromSerialized sampleFile sampleFiles s.serialize = some s := by
  have hrun : ((Instance.fresh sampleFile).runOperations sampleFile sampleFiles
      (sampleOperations ["a"])).map (fun s => decide (s.me.pluralId ≠ [] ∧ s.Fits)) = some true := by
    decide +kernel
  have hpersist : PersistableRun sampleFile sampleFiles (sampleOperations ["a"])
      (Instance.fresh sampleFile) := by
    decide +kernel
  obtain ⟨s, hs, hfits⟩ := Option.map_eq_some_iff.mp hrun
  obtain ⟨hswitched, hfits⟩ := of_decide_eq_true hfits
  exact ⟨s, hs, fillFromSerialized_serialize hpersist hs hswitched hfits⟩

/-- A string that is not parsed leaves the value before it shown, until the pack is saved and
filled again. -/
theorem unparsed_shows_base :
    ∃ s filled, (Instance.fresh sampleFile).runOperations sampleFile sampleFiles
        (sampleOperations ["a", "\x7b"]) = some s ∧
      (Instance.fresh sampleFile).fillFromSerialized sampleFile sampleFiles s.serialize =
        some filled ∧
      s.values () = utf16 "a" ∧ filled.values () = tagReplacer 0 ++ utf16 " b" ∧
      filled.values () ≠ s.values () := by
  have hrun : (((Instance.fresh sampleFile).runOperations sampleFile sampleFiles
      (sampleOperations ["a", "\x7b"])).bind fun s =>
        ((Instance.fresh sampleFile).fillFromSerialized sampleFile sampleFiles s.serialize).map
          fun filled => (s.values (), filled.values ())) =
      some (utf16 "a", tagReplacer 0 ++ utf16 " b") := by
    decide +kernel
  obtain ⟨s, hs, hfilled⟩ := Option.bind_eq_some_iff.mp hrun
  obtain ⟨filled, hfilled, hvalues⟩ := Option.map_eq_some_iff.mp hfilled
  obtain ⟨hshown, hfilledShown⟩ := Prod.mk.inj hvalues
  refine ⟨s, filled, hs, hfilled, hshown, hfilledShown, ?_⟩
  rw [hshown, hfilledShown]
  decide

end TelegramClient.Lang
