import TelegramClient.Lang.Instance

/-! The displayed values of a language pack in layers: the current pack over the base pack over
the original values. -/

namespace TelegramClient.Lang

variable {LangKey : Type} [DecidableEq LangKey] (g : LangFile LangKey)

/-- The parsed values last set and not deleted since, after one more change. -/
def remember (last : LangKey → Option QString) : Change → LangKey → Option QString
  | .set key value =>
    match parseKeyValue g key value with
    | some (index, text) => Function.update last index (some text)
    | none => last
  | .reset key =>
    match keyIndexOf g key with
    | some index => Function.update last index none
    | none => last

/-- The parsed values last set by the changes and not deleted since. -/
def lastSet (changes : List Change) : LangKey → Option QString :=
  changes.foldl (remember g) fun _ => none

omit [DecidableEq LangKey] in
theorem keyIndexOf_of_plain {key : List UInt8} (h : 0 ∉ key) :
    keyIndexOf g key = g.getKeyIndex key := by
  rw [keyIndexOf, List.takeWhile_eq_self_iff.mpr]
  intro b hb
  simp only [ne_eq, decide_not, Bool.not_eq_true', decide_eq_false_iff_not]
  rintro rfl
  exact h hb

omit [DecidableEq LangKey] in
theorem keyIndexOf_unique {a b : List UInt8} {index : LangKey} (ha : 0 ∉ a) (hb : 0 ∉ b)
    (hai : keyIndexOf g a = some index) (hbi : keyIndexOf g b = some index) : a = b := by
  rw [keyIndexOf_of_plain g ha] at hai
  rw [keyIndexOf_of_plain g hb] at hbi
  exact g.getKeyIndex_injective a b index hai hbi

omit [DecidableEq LangKey] in
theorem parseKeyValue_eq_some {key value : List UInt8} {index : LangKey} {text : QString} :
    parseKeyValue g key value = some (index, text) ↔
      keyIndexOf g key = some index ∧ parse g index value = some text := by
  cases h : keyIndexOf g key with
  | none => simp [parseKeyValue, h]
  | some index' =>
    simp only [parseKeyValue, h, Option.map_eq_some_iff, Prod.mk.injEq, Option.some.injEq]
    constructor
    · rintro ⟨_, htext, rfl, rfl⟩
      exact ⟨rfl, htext⟩
    · rintro ⟨rfl, htext⟩
      exact ⟨text, htext, rfl, rfl⟩

/-- The flags of a pack tell which values are set in it. -/
def Flags (last : LangKey → Option QString) (me : PackData LangKey) : Prop :=
  ∀ index, me.nonDefaultSet index = (last index).isSome

/-- The strings a pack keeps against the values set in it: a string that parses is the last
that was set. -/
structure Stored (last : LangKey → Option QString) (me : PackData LangKey) : Prop where
  missing : ∀ key index, keyIndexOf g key = some index → 0 ∉ key →
    me.nonDefaultValues[key]? = none → last index = none
  parsed : ∀ key index value text, keyIndexOf g key = some index → 0 ∉ key →
    me.nonDefaultValues[key]? = some value → parse g index value = some text →
      last index = some text

/-- A key that names a value has no zero byte, and a deletion in the current pack finds no
string in the base pack, or one that shows the same decoded as parsed. -/
def Plain (s : Instance LangKey) (pack : Pack) : Change → Prop
  | .set key _ => keyIndexOf g key ≠ none → 0 ∉ key
  | .reset key => keyIndexOf g key ≠ none → 0 ∉ key ∧
      (pack = .current → ∀ base ∈ s.base, ∀ value ∈ base.nonDefaultValues[key]?,
        0x7B ∉ value ∧ g.fromUtf8 value ≠ [])

instance (s : Instance LangKey) (pack : Pack) (change : Change) :
    Decidable (Plain g s pack change) :=
  match change with
  | .set _ _ => inferInstanceAs (Decidable (_ → _))
  | .reset _ => inferInstanceAs (Decidable (_ → _ ∧ (_ → _)))

/-- The values that are shown, with the values last set in the current and the base pack. -/
structure Layered (current base : LangKey → Option QString) (s : Instance LangKey) : Prop where
  flags : Flags current s.me
  baseFlags : ∀ b, s.base = some b → Flags base b
  baseStored : ∀ b, s.base = some b → Stored g base b
  noBase : s.base = none → ∀ index, base index = none
  values : ∀ index, s.values index =
    ((current index).or (base index)).getD (g.getOriginalValue index)

section Steps

variable {g} {current base last : LangKey → Option QString} {s : Instance LangKey}
  {me : PackData LangKey} {key value : List UInt8}

theorem Flags.set {index : LangKey} {text : QString} (h : Flags last me) :
    Flags (Function.update last index (some text))
      { me with nonDefaultSet := Function.update me.nonDefaultSet index true } := by
  intro i
  by_cases hi : i = index
  · simp [hi]
  · simpa [hi] using h i

theorem Flags.reset {index : LangKey} (h : Flags last me) :
    Flags (Function.update last index none)
      { me with nonDefaultSet := Function.update me.nonDefaultSet index false } := by
  intro i
  by_cases hi : i = index
  · simp [hi]
  · simpa [hi] using h i

theorem remember_set_none (h : parseKeyValue g key value = none) :
    remember g last (.set key value) = last := by
  simp [remember, h]

theorem remember_set_some {index : LangKey} {text : QString}
    (h : parseKeyValue g key value = some (index, text)) :
    remember g last (.set key value) = Function.update last index (some text) := by
  simp [remember, h]

theorem remember_set_other {index : LangKey} (h : keyIndexOf g key ≠ some index) :
    remember g last (.set key value) index = last index := by
  cases hp : parseKeyValue g key value with
  | none => rw [remember_set_none hp]
  | some r =>
    obtain ⟨index', text⟩ := r
    rw [remember_set_some hp, Function.update_of_ne]
    rintro rfl
    exact h ((parseKeyValue_eq_some g).mp hp).1

theorem remember_reset_other {index : LangKey} (h : keyIndexOf g key ≠ some index) :
    remember g last (.reset key) index = last index := by
  cases hk : keyIndexOf g key with
  | none => simp [remember, hk]
  | some index' =>
    simp only [remember, hk]
    rw [Function.update_of_ne]
    rintro rfl
    exact h hk

theorem Stored.set (value : List UInt8) (hplain : keyIndexOf g key ≠ none → 0 ∉ key) (h : Stored g last me) :
    Stored g (remember g last (.set key value))
      { me with nonDefaultValues := me.nonDefaultValues.insert key value } := by
  constructor
  · intro key' index hindex hzero hnone
    have hne : key ≠ key' := by
      rintro rfl
      simp at hnone
    have hother : keyIndexOf g key ≠ some index := by
      intro hkey
      exact hne (keyIndexOf_unique g (hplain (by simp [hkey])) hzero hkey hindex)
    rw [remember_set_other hother]
    apply h.missing key' index hindex hzero
    simpa [Std.ExtTreeMap.getElem?_insert, hne] using hnone
  · intro key' index value' text hindex hzero hsome htext
    by_cases hne : key = key'
    · subst hne
      obtain rfl : value = value' := by simpa using hsome
      rw [remember_set_some ((parseKeyValue_eq_some g).mpr ⟨hindex, htext⟩)]
      simp
    · have hother : keyIndexOf g key ≠ some index := by
        intro hkey
        exact hne (keyIndexOf_unique g (hplain (by simp [hkey])) hzero hkey hindex)
      rw [remember_set_other hother]
      apply h.parsed key' index value' text hindex hzero _ htext
      simpa [Std.ExtTreeMap.getElem?_insert, hne] using hsome

theorem Stored.reset (hplain : keyIndexOf g key ≠ none → 0 ∉ key) (h : Stored g last me) :
    Stored g (remember g last (.reset key))
      { me with nonDefaultValues := me.nonDefaultValues.erase key } := by
  constructor
  · intro key' index hindex hzero hnone
    by_cases hkey : keyIndexOf g key = some index
    · simp [remember, hkey]
    · rw [remember_reset_other hkey]
      apply h.missing key' index hindex hzero
      have hne : key ≠ key' := by
        rintro rfl
        exact hkey hindex
      simpa [Std.ExtTreeMap.getElem?_erase, hne] using hnone
  · intro key' index value' text hindex hzero hsome htext
    have hne : key ≠ key' := by
      rintro rfl
      simp at hsome
    have hother : keyIndexOf g key ≠ some index := by
      intro hkey
      exact hne (keyIndexOf_unique g (hplain (by simp [hkey])) hzero hkey hindex)
    rw [remember_reset_other hother]
    apply h.parsed key' index value' text hindex hzero _ htext
    simpa [Std.ExtTreeMap.getElem?_erase, hne] using hsome

theorem layered_set_current (h : Layered g current base s) :
    Layered g (remember g current (.set key value)) base (s.applyValue g .current key value) := by
  cases hp : parseKeyValue g key value with
  | none =>
    rw [remember_set_none hp]
    simp only [Instance.applyValue, Instance.modify, hp]
    exact ⟨h.flags, h.baseFlags, h.baseStored, h.noBase, h.values⟩
  | some r =>
    obtain ⟨index, text⟩ := r
    rw [remember_set_some hp]
    simp only [Instance.applyValue, Instance.modify, hp, Instance.setValue]
    refine ⟨h.flags.set, h.baseFlags, h.baseStored, h.noBase, ?_⟩
    intro i
    by_cases hi : i = index
    · simp [hi]
    · simpa [hi] using h.values i

theorem applyValue_base {b : PackData LangKey} {values : LangKey → QString} {index : LangKey}
    {text : QString} (hp : parseKeyValue g key value = some (index, text)) :
    (Instance.mk me (some b) values).applyValue g .base key value =
      ⟨me, some { b with
          nonDefaultValues := b.nonDefaultValues.insert key value
          nonDefaultSet := Function.update b.nonDefaultSet index true },
        if me.nonDefaultSet index then values else Function.update values index text⟩ := by
  cases hset : me.nonDefaultSet index <;>
    simp [Instance.applyValue, Instance.modify, Instance.setValue, hp, hset]

theorem resetValue_base {b : PackData LangKey} {values : LangKey → QString} {index : LangKey}
    (hk : keyIndexOf g key = some index) :
    (Instance.mk me (some b) values).resetValue g .base key =
      ⟨me, some { b with
          nonDefaultValues := b.nonDefaultValues.erase key
          nonDefaultSet := Function.update b.nonDefaultSet index false },
        if me.nonDefaultSet index then values
        else Function.update values index (g.getOriginalValue index)⟩ := by
  cases hset : me.nonDefaultSet index <;>
    simp [Instance.resetValue, Instance.modify, Instance.setValue, hk, hset]

/-- A value of the base pack is shown where the current pack has none. -/
theorem layered_values_base {values : LangKey → QString} {index : LangKey}
    (shown : Option QString) (hflags : Flags current me)
    (h : ∀ i, values i = ((current i).or (base i)).getD (g.getOriginalValue i)) :
    ∀ i, (if me.nonDefaultSet index then values
      else Function.update values index (shown.getD (g.getOriginalValue index))) i =
        ((current i).or (Function.update base index shown i)).getD (g.getOriginalValue i) := by
  intro i
  have hflag := hflags index
  by_cases hi : i = index
  · subst hi
    cases hc : current i with
    | none => simp [hflag, hc]
    | some text =>
      have hv := h i
      simp only [hc, Option.some_or, Option.getD_some] at hv ⊢
      simp [hflag, hc, hv]
  · have hv := h i
    rw [Function.update_of_ne hi]
    split
    · exact hv
    · rw [Function.update_of_ne hi]
      exact hv

theorem layered_set_base (hb : s.base.isSome) (hplain : keyIndexOf g key ≠ none → 0 ∉ key)
    (h : Layered g current base s) :
    Layered g current (remember g base (.set key value)) (s.applyValue g .base key value) := by
  obtain ⟨me, sbase, values⟩ := s
  obtain ⟨b, rfl⟩ := Option.isSome_iff_exists.mp hb
  have hstored := (h.baseStored b rfl).set value hplain
  cases hp : parseKeyValue g key value with
  | none =>
    rw [remember_set_none hp] at hstored ⊢
    simp only [Instance.applyValue, Instance.modify, hp, Option.map_some]
    refine ⟨h.flags, ?_, ?_, by simp, h.values⟩
    · rintro _ ⟨⟩
      exact h.baseFlags b rfl
    · rintro _ ⟨⟩
      exact hstored
  | some r =>
    obtain ⟨index, text⟩ := r
    rw [remember_set_some hp] at hstored ⊢
    rw [applyValue_base hp]
    refine ⟨h.flags, ?_, ?_, by simp, layered_values_base (some text) h.flags h.values⟩
    · rintro _ ⟨⟩
      exact (h.baseFlags b rfl).set
    · rintro _ ⟨⟩
      exact ⟨hstored.missing, hstored.parsed⟩

theorem layered_reset_base (hb : s.base.isSome) (hplain : keyIndexOf g key ≠ none → 0 ∉ key)
    (h : Layered g current base s) :
    Layered g current (remember g base (.reset key)) (s.resetValue g .base key) := by
  obtain ⟨me, sbase, values⟩ := s
  obtain ⟨b, rfl⟩ := Option.isSome_iff_exists.mp hb
  have hstored := (h.baseStored b rfl).reset hplain
  cases hk : keyIndexOf g key with
  | none =>
    simp only [remember, hk] at hstored ⊢
    simp only [Instance.resetValue, Instance.modify, hk, Option.map_some]
    refine ⟨h.flags, ?_, ?_, by simp, h.values⟩
    · rintro _ ⟨⟩
      exact h.baseFlags b rfl
    · rintro _ ⟨⟩
      exact hstored
  | some index =>
    simp only [remember, hk] at hstored ⊢
    rw [resetValue_base hk]
    refine ⟨h.flags, ?_, ?_, by simp, layered_values_base none h.flags h.values⟩
    · rintro _ ⟨⟩
      exact (h.baseFlags b rfl).reset
    · rintro _ ⟨⟩
      exact ⟨hstored.missing, hstored.parsed⟩

omit [DecidableEq LangKey] in
/-- What is shown of the base pack when the current pack drops a key. -/
theorem shown_of_base (hplain : Plain g s .current (.reset key)) {index : LangKey}
    (hindex : keyIndexOf g key = some index) (h : Layered g current base s) :
    (if (s.base.map fun b => b.getNonDefaultValue g key).getD [] ≠ [] then
      (s.base.map fun b => b.getNonDefaultValue g key).getD []
      else g.getOriginalValue index) = (base index).getD (g.getOriginalValue index) := by
  obtain ⟨hzero, hshows⟩ := hplain (by simp [hindex])
  cases hb : s.base with
  | none => simp [h.noBase hb index]
  | some b =>
    have hstored := h.baseStored b hb
    cases hv : b.nonDefaultValues[key]? with
    | none => simp [PackData.getNonDefaultValue, hv, hstored.missing key index hindex hzero hv]
    | some value =>
      obtain ⟨hbrace, hne⟩ := hshows rfl b hb value hv
      have htext := hstored.parsed key index value _ hindex hzero hv (parse_plain g hbrace)
      simp [PackData.getNonDefaultValue, hv, hne, htext]

theorem layered_reset_current (hplain : Plain g s .current (.reset key))
    (h : Layered g current base s) :
    Layered g (remember g current (.reset key)) base (s.resetValue g .current key) := by
  cases hk : keyIndexOf g key with
  | none =>
    simp only [remember, Instance.resetValue, Instance.modify, hk]
    exact ⟨h.flags, h.baseFlags, h.baseStored, h.noBase, h.values⟩
  | some index =>
    have hshown := shown_of_base hplain hk h
    simp only [remember, Instance.resetValue, Instance.modify, hk, Instance.setValue]
    refine ⟨h.flags.reset, h.baseFlags, h.baseStored, h.noBase, ?_⟩
    intro i
    by_cases hi : i = index
    · subst hi
      simp only [Function.update_self, Option.none_or]
      exact hshown
    · simpa [hi] using h.values i

end Steps

/-! ## The two packs -/

/-- A pack after one change. -/
def PackData.applied (p : PackData LangKey) : Change → PackData LangKey
  | .set key value =>
    { p with
      nonDefaultValues := p.nonDefaultValues.insert key value
      nonDefaultSet :=
        match parseKeyValue g key value with
        | some (index, _) => Function.update p.nonDefaultSet index true
        | none => p.nonDefaultSet }
  | .reset key =>
    { p with
      nonDefaultValues := p.nonDefaultValues.erase key
      nonDefaultSet :=
        match keyIndexOf g key with
        | some index => Function.update p.nonDefaultSet index false
        | none => p.nonDefaultSet }

namespace Instance

variable {g} {s : Instance LangKey} {pack other : Pack} {f : PackData LangKey → PackData LangKey}

omit [DecidableEq LangKey] in
theorem data_modify : (s.modify pack f).data pack = (s.data pack).map f := by
  cases pack <;> rfl

omit [DecidableEq LangKey] in
theorem data_modify_of_ne (h : other ≠ pack) : (s.modify pack f).data other = s.data other := by
  cases pack <;> cases other <;> first | rfl | exact absurd rfl h

theorem data_applyChange (change : Change) :
    (s.applyChange g pack change).data pack = (s.data pack).map fun p => p.applied g change := by
  cases change with
  | set key value =>
    cases hparse : parseKeyValue g key value with
    | none => cases pack <;> simp [applyChange, applyValue, modify, data, PackData.applied, hparse]
    | some r =>
      cases hset : s.me.nonDefaultSet r.1 <;> cases pack <;>
        simp [applyChange, applyValue, modify, setValue, data, PackData.applied, hparse, hset,
          Function.comp_def]
  | reset key =>
    cases hkey : keyIndexOf g key with
    | none => cases pack <;> simp [applyChange, resetValue, modify, data, PackData.applied, hkey]
    | some index =>
      cases hset : s.me.nonDefaultSet index <;> cases pack <;>
        simp [applyChange, resetValue, modify, setValue, data, PackData.applied, hkey, hset,
          Function.comp_def]

theorem data_applyChange_of_ne (change : Change) (h : other ≠ pack) :
    (s.applyChange g pack change).data other = s.data other := by
  cases change with
  | set key value =>
    cases hparse : parseKeyValue g key value with
    | none =>
      simp only [applyChange, applyValue, hparse]
      exact data_modify_of_ne h
    | some r =>
      cases hset : s.me.nonDefaultSet r.1 <;> cases pack <;> cases other <;>
        simp [applyChange, applyValue, modify, setValue, data, hparse, hset] at h ⊢
  | reset key =>
    cases hkey : keyIndexOf g key with
    | none =>
      simp only [applyChange, resetValue, hkey]
      exact data_modify_of_ne h
    | some index =>
      cases hset : s.me.nonDefaultSet index <;> cases pack <;> cases other <;>
        simp [applyChange, resetValue, modify, setValue, data, hkey, hset] at h ⊢

theorem data_applyChanges (changes : List Change) :
    (s.applyChanges g pack changes).data pack =
      (s.data pack).map fun p => changes.foldl (PackData.applied g) p := by
  induction changes generalizing s with
  | nil => simp [applyChanges]
  | cons change changes ih =>
    have h : s.applyChanges g pack (change :: changes) =
        (s.applyChange g pack change).applyChanges g pack changes := rfl
    rw [h, ih, data_applyChange, Option.map_map]
    rfl

theorem data_applyChanges_of_ne (changes : List Change) (h : other ≠ pack) :
    (s.applyChanges g pack changes).data other = s.data other := by
  induction changes generalizing s with
  | nil => rfl
  | cons change changes ih =>
    have hcons : s.applyChanges g pack (change :: changes) =
        (s.applyChange g pack change).applyChanges g pack changes := rfl
    rw [hcons, ih, data_applyChange_of_ne change h]

end Instance

/-! ## Runs -/

/-- The values last set in the two packs. -/
abbrev Last (LangKey : Type) := Pack → LangKey → Option QString

/-- Every change finds the strings it needs as they are shown. -/
def PlainChanges (pack : Pack) : List Change → Instance LangKey → Prop
  | [], _ => True
  | change :: changes, s =>
    Plain g s pack change ∧ PlainChanges pack changes (s.applyChange g pack change)

instance decidablePlainChanges (pack : Pack) (changes : List Change) (s : Instance LangKey) :
    Decidable (PlainChanges g pack changes s) :=
  match changes with
  | [] => instDecidableTrue
  | change :: changes =>
    have := decidablePlainChanges pack changes (s.applyChange g pack change)
    inferInstanceAs (Decidable (_ ∧ _))

/-- Every difference brings such changes. -/
def PlainRun : List (Pack × Difference) → Instance LangKey → Prop
  | [], _ => True
  | (pack, d) :: rest, s =>
    PlainChanges g pack d.changes (s.setVersion pack d.version) ∧
      PlainRun rest ((s.setVersion pack d.version).applyChanges g pack d.changes)

instance decidablePlainRun (ds : List (Pack × Difference)) (s : Instance LangKey) :
    Decidable (PlainRun g ds s) :=
  match ds with
  | [] => instDecidableTrue
  | (pack, d) :: rest =>
    have := decidablePlainRun rest ((s.setVersion pack d.version).applyChanges g pack d.changes)
    inferInstanceAs (Decidable (_ ∧ _))

/-- The changes the differences bring to a pack. -/
def changesOf (pack : Pack) (ds : List (Pack × Difference)) : List Change :=
  (ds.filter fun d => d.1 = pack).flatMap fun d => d.2.changes

/-- No string was set yet. -/
structure Untouched (s : Instance LangKey) : Prop where
  flags : ∀ index, s.me.nonDefaultSet index = false
  strings : s.me.nonDefaultValues = ∅
  baseFlags : ∀ b, s.base = some b → ∀ index, b.nonDefaultSet index = false
  baseStrings : ∀ b, s.base = some b → b.nonDefaultValues = ∅
  values : s.values = g.getOriginalValue

omit [DecidableEq LangKey] in
theorem fresh_untouched : Untouched g (Instance.fresh g) := by
  constructor <;> simp [Instance.fresh]

omit [DecidableEq LangKey] in
theorem reset_untouched (data : Language) (pluralCode : QString → QString → QString) :
    let p : PackData LangKey := (PackData.reset data).updatePluralRules pluralCode
    (∀ index, p.nonDefaultSet index = false) ∧ p.nonDefaultValues = ∅ := by
  simp only [PackData.updatePluralRules]
  split <;> exact ⟨fun _ => rfl, rfl⟩

omit [DecidableEq LangKey] in
/-- After a switch to a language no string is set. The two test languages show test values. -/
theorem switchToId_untouched (pluralCode : QString → QString → QString) (data : Language)
    (htest : data.id ≠ utf16 "#TEST_X" ∧ data.id ≠ utf16 "#TEST_0") :
    Untouched g (Instance.switchToId g pluralCode data) := by
  have hid : languageIdOrDefault data.id ≠ utf16 "#TEST_X" ∧
      languageIdOrDefault data.id ≠ utf16 "#TEST_0" := by
    rw [languageIdOrDefault]
    split
    · exact htest
    · decide
  constructor
  · exact (reset_untouched data pluralCode).1
  · exact (reset_untouched data pluralCode).2
  · intro b hb
    simp only [Instance.switchToId] at hb
    split at hb
    · cases hb
    · obtain rfl := Option.some.inj hb
      exact (reset_untouched _ pluralCode).1
  · intro b hb
    simp only [Instance.switchToId] at hb
    split at hb
    · cases hb
    · obtain rfl := Option.some.inj hb
      exact (reset_untouched _ pluralCode).2
  · have hnot : ¬ ((PackData.reset data : PackData LangKey).id = utf16 "#TEST_X" ∨
        (PackData.reset data : PackData LangKey).id = utf16 "#TEST_0") := by
      rintro (h | h)
      · exact hid.1 h
      · exact hid.2 h
    simp only [Instance.switchToId, hnot, if_false]

section Runs

variable {g} {last : Last LangKey} {s s' : Instance LangKey} {pack : Pack}

omit [DecidableEq LangKey] in
theorem layered_untouched (h : Untouched g s) :
    Layered g (fun _ => none) (fun _ => none) s := by
  constructor
  · intro index
    simp [h.flags index]
  · intro b hb index
    simp [h.baseFlags b hb index]
  · intro b hb
    constructor
    · intro _ _ _ _ _
      rfl
    · intro key index value text _ _ hsome
      simp [h.baseStrings b hb] at hsome
  · intro _ _
    rfl
  · intro index
    simp [h.values]

omit [DecidableEq LangKey] in
theorem layered_modify {current base : LangKey → Option QString}
    {f : PackData LangKey → PackData LangKey}
    (hset : ∀ p, (f p).nonDefaultSet = p.nonDefaultSet)
    (hvalues : ∀ p, (f p).nonDefaultValues = p.nonDefaultValues)
    (h : Layered g current base s) : Layered g current base (s.modify pack f) := by
  cases pack with
  | current =>
    refine ⟨?_, h.baseFlags, h.baseStored, h.noBase, h.values⟩
    intro index
    rw [← h.flags index]
    exact congrFun (hset s.me) index
  | base =>
    obtain ⟨me, sbase, values⟩ := s
    cases sbase with
    | none => exact h
    | some b =>
      refine ⟨h.flags, ?_, ?_, by simp [Instance.modify], h.values⟩
      · rintro _ ⟨⟩ index
        rw [hset]
        exact h.baseFlags b rfl index
      · rintro _ ⟨⟩
        have hstored := h.baseStored b rfl
        constructor
        · rw [hvalues]
          exact hstored.missing
        · rw [hvalues]
          exact hstored.parsed

omit [DecidableEq LangKey] in
theorem layered_version (version : Int32) (h : Layered g (last .current) (last .base) s) :
    Layered g (last .current) (last .base) (s.setVersion pack version) :=
  layered_modify (fun _ => rfl) (fun _ => rfl) h

theorem layered_change {change : Change} (hb : (s.data pack).isSome)
    (hplain : Plain g s pack change) (h : Layered g (last .current) (last .base) s) :
    let last' := Function.update last pack (remember g (last pack) change)
    Layered g (last' .current) (last' .base) (s.applyChange g pack change) := by
  cases pack with
  | current =>
    cases change with
    | set key value => simpa [Instance.applyChange] using layered_set_current h
    | reset key => simpa [Instance.applyChange] using layered_reset_current hplain h
  | base =>
    cases change with
    | set key value => simpa [Instance.applyChange] using layered_set_base hb hplain h
    | reset key =>
      have hzero : keyIndexOf g key ≠ none → 0 ∉ key := fun hk => (hplain hk).1
      simpa [Instance.applyChange] using layered_reset_base hb hzero h

theorem layered_changes {changes : List Change} (hb : (s.data pack).isSome)
    (hplain : PlainChanges g pack changes s) (h : Layered g (last .current) (last .base) s) :
    let last' := Function.update last pack (changes.foldl (remember g) (last pack))
    Layered g (last' .current) (last' .base) (s.applyChanges g pack changes) := by
  induction changes generalizing s last with
  | nil => simpa [Instance.applyChanges] using h
  | cons change changes ih =>
    obtain ⟨hfirst, hrest⟩ := hplain
    have hstep := layered_change hb hfirst h
    have hb' : ((s.applyChange g pack change).data pack).isSome := by
      rw [Instance.data_applyChange, Option.isSome_map]
      exact hb
    have hall := ih hb' hrest hstep
    simp only [Function.update_self, Function.update_idem] at hall
    exact hall

theorem applyDifference_eq_some {d : Difference}
    (h : s.applyDifference g pack d = some s') :
    (s.data pack).isSome ∧ (s.setVersion pack d.version).applyChanges g pack d.changes = s' := by
  simp only [Instance.applyDifference] at h
  split at h
  · cases h
  · split at h
    · exact ⟨by simp [*], Option.some.inj h⟩
    · cases h

/-- Along a run the layers are those of the changes brought to each of the two packs. -/
theorem layered_run {ds : List (Pack × Difference)} (last : Last LangKey) (hplain : PlainRun g ds s)
    (h : Layered g (last .current) (last .base) s) (hrun : s.applyDifferences g ds = some s') :
    Layered g ((changesOf .current ds).foldl (remember g) (last .current))
      ((changesOf .base ds).foldl (remember g) (last .base)) s' := by
  induction ds generalizing s last with
  | nil =>
    obtain rfl : s = s' := by simpa [Instance.applyDifferences] using hrun
    exact h
  | cons d ds ih =>
    obtain ⟨pack, d⟩ := d
    obtain ⟨hfirst, hrest⟩ := hplain
    obtain ⟨s₁, hstep, hrun⟩ := Option.bind_eq_some_iff.mp hrun
    obtain ⟨hb, rfl⟩ := applyDifference_eq_some hstep
    have hb' : ((s.setVersion pack d.version).data pack).isSome := by
      rw [Instance.setVersion, Instance.data_modify, Option.isSome_map]
      exact hb
    have hall := ih _ hrest (layered_changes hb' hfirst (layered_version d.version h)) hrun
    cases pack with
    | current => simpa [changesOf] using hall
    | base => simpa [changesOf] using hall

/-- What is shown after any run: the value last set in the current pack, else the value last
set in the base pack, else the original value. -/
theorem shown_layered {ds : List (Pack × Difference)} (huntouched : Untouched g s)
    (hplain : PlainRun g ds s) (hrun : s.applyDifferences g ds = some s') (index : LangKey) :
    s'.values index =
      ((lastSet g (changesOf .current ds) index).or
        (lastSet g (changesOf .base ds) index)).getD (g.getOriginalValue index) := by
  have h := layered_run (fun _ _ => none) hplain (layered_untouched huntouched) hrun
  exact h.values index

end Runs

/-- A language file with one value and one tag. -/
def sampleFile : LangFile Unit where
  getKeyIndex key := if key = ascii "lng_a" then some () else none
  getTagIndex tag := if tag = ascii "count" then some 0 else none
  isTagReplaced _ _ := true
  getOriginalValue _ := utf16 "original"
  fromUtf8 bytes := bytes.map UInt8.toUInt16
  isSpace ch := ch = 0x20
  getKeyIndex_injective := by
    intro a b _ ha hb
    simp only [Option.ite_none_right_eq_some] at ha hb
    rw [ha.1, hb.1]
  fromUtf8_nil := rfl

/-- A switch to a language with a base language. -/
def sampleInstance : Instance Unit :=
  Instance.switchToId sampleFile (fun _ _ => [])
    { id := utf16 "de-x", pluralId := utf16 "de", baseId := utf16 "de" }

def sampleDifferences (baseValue : String) : List (Pack × Difference) :=
  [(.base, ⟨utf16 "de", 0, 1, [.plain (ascii "lng_a") (ascii baseValue)]⟩),
    (.current, ⟨utf16 "de-x", 0, 1, [.plain (ascii "lng_a") (ascii "c")]⟩),
    (.current, ⟨utf16 "de-x", 1, 2, [.deleted (ascii "lng_a")]⟩)]

theorem shown_layered_base_text :
    ∃ s', sampleInstance.applyDifferences sampleFile (sampleDifferences "b") = some s' ∧
      s'.values () =
        ((lastSet sampleFile (changesOf .current (sampleDifferences "b")) ()).or
          (lastSet sampleFile (changesOf .base (sampleDifferences "b")) ())).getD
            (sampleFile.getOriginalValue ()) := by
  have hrun : (sampleInstance.applyDifferences sampleFile (sampleDifferences "b")).isSome := by
    decide +kernel
  obtain ⟨s', hs'⟩ := Option.isSome_iff_exists.mp hrun
  have hplain : PlainRun sampleFile (sampleDifferences "b") sampleInstance := by
    decide +kernel
  exact ⟨s', hs', shown_layered (switchToId_untouched _ _ _ (by decide)) hplain hs' ()⟩

/-- After a deletion in the current pack the string of the base pack is shown with its tag not
replaced. -/
theorem deleted_shows_tag :
    ∃ s', sampleInstance.applyDifferences sampleFile (sampleDifferences "{count} b") = some s' ∧
      s'.values () = utf16 "{count} b" ∧
      s'.values () ≠
        ((lastSet sampleFile (changesOf .current (sampleDifferences "{count} b")) ()).or
          (lastSet sampleFile (changesOf .base (sampleDifferences "{count} b")) ())).getD
            (sampleFile.getOriginalValue ()) := by
  have hrun : (sampleInstance.applyDifferences sampleFile (sampleDifferences "{count} b")).map
      (fun s' => s'.values ()) = some (utf16 "{count} b") := by
    decide +kernel
  obtain ⟨s', hs', hshown⟩ := Option.map_eq_some_iff.mp hrun
  refine ⟨s', hs', hshown, ?_⟩
  rw [hshown]
  decide +kernel

end TelegramClient.Lang
