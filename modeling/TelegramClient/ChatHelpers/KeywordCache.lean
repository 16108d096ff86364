import TelegramClient.Lib.TreeMap
import TelegramClient.ChatHelpers.KeywordWords

/-! The cache of a pack: whatever is read is well formed, and what was written is read back. -/

namespace TelegramClient.ChatHelpers

open DataStream Lang Std

variable {Emoji : Type} (env : Environment Emoji)

structure LangPackData.Fits (data : LangPackData Emoji) : Prop where
  size_lt : data.emoji.size < 2 ^ 31
  key_lt : ∀ pair ∈ data.emoji.toList, pair.1.length < 2 ^ 31
  list_lt : ∀ pair ∈ data.emoji.toList, pair.2.length < 2 ^ 31
  text_lt : ∀ pair ∈ data.emoji.toList, ∀ entry ∈ pair.2, entry.text.length < 2 ^ 31

/-- The cache is written, with a version that will be read, or there is the same in it already. -/
def LangPackData.IsCached (opened : Bool) (data : LangPackData Emoji)
    (file : Option (List UInt8)) : Prop :=
  if opened && !(data.version = 0 && data.emoji.isEmpty) then 0 ≤ data.version
  else readLocalCache env file = data

section

variable {env} {emoji : Words Emoji} {data result : LangPackData Emoji} {key text : QString}
  {entry : LangPackEmoji Emoji} {list : List (LangPackEmoji Emoji)} {s s' : Source}

theorem bind_eq_some {α β : Type} {x : Reader α} {f : α → Reader β} {r : β × Source} :
    (x >>= f) s = some r ↔ ∃ a s', x s = some (a, s') ∧ f a s' = some r := by
  change (x s).bind (fun p => f p.1 p.2) = some r ↔ _
  rw [Option.bind_eq_some_iff, Prod.exists]

theorem status_eq (s : Source) : status s = some (s.ok, s) := rfl

theorem lift_eq_some {α : Type} {x : Option α} {r : α × Source} :
    (StateT.lift x : Reader α) s = some r ↔ x = some r.1 ∧ s = r.2 := by
  cases x with
  | none => simp [StateT.lift]
  | some a => simp [StateT.lift, Prod.ext_iff]

/-! ### Whatever is read is well formed -/

theorem readTexts_entry_eq {n : Nat} (h : readTexts env n s = some (list, s')) :
    ∀ e ∈ list, env.entry e.text = some e := by
  induction n generalizing s s' list with
  | zero =>
    obtain ⟨rfl, -⟩ := Prod.mk.inj (Option.some.inj h)
    simp
  | succ n ih =>
    obtain ⟨text, _, -, h⟩ := bind_eq_some.mp h
    obtain ⟨ok, _, -, h⟩ := bind_eq_some.mp h
    obtain ⟨_, _, -, h⟩ := bind_eq_some.mp h
    obtain ⟨e, _, hentry, h⟩ := bind_eq_some.mp h
    obtain ⟨rest, _, hrest, h⟩ := bind_eq_some.mp h
    obtain ⟨rfl, -⟩ := Prod.mk.inj (Option.some.inj h)
    have hentry := (lift_eq_some.mp hentry).1
    rw [List.forall_mem_cons]
    exact ⟨by rw [entry_text hentry, hentry], ih hrest⟩

theorem maxLength_insert : maxLength (emoji.insert key list).keys =
    max (maxLength emoji.keys) key.length := by
  apply eq_of_forall_ge_iff
  intro n
  simp only [maxLength, foldl_max_le_iff, Nat.max_le, Nat.zero_le, true_and, ExtTreeMap.mem_keys,
    ExtTreeMap.mem_insert, Std.compare_eq_iff_eq]
  constructor
  · intro h
    exact ⟨fun other hother => h other (.inr hother), h key (.inl rfl)⟩
  · rintro ⟨hold, hkey⟩ other (rfl | hother)
    · exact hkey
    · exact hold other hother

theorem readKeys_wellFormed {n : Nat} (hresult : result.WellFormed env)
    (h : readKeys env n result s = some (data, s')) : data.WellFormed env := by
  induction n generalizing s result with
  | zero =>
    obtain ⟨rfl, -⟩ := Prod.mk.inj (Option.some.inj h)
    exact hresult
  | succ n ih =>
    obtain ⟨key, _, -, h⟩ := bind_eq_some.mp h
    obtain ⟨size, _, -, h⟩ := bind_eq_some.mp h
    obtain ⟨ok, _, -, h⟩ := bind_eq_some.mp h
    obtain ⟨_, _, -, h⟩ := bind_eq_some.mp h
    obtain ⟨list, _, hlist, h⟩ := bind_eq_some.mp h
    refine ih ?_ h
    constructor
    · intro other e he
      rw [entriesOf_insert] at he
      split at he
      · cases List.mem_append.mp he with
        | inl hold => exact hresult.entry_eq key e hold
        | inr hnew => exact readTexts_entry_eq hlist e hnew
      · exact hresult.entry_eq other e he
    · rw [maxLength_insert, ← hresult.maxKeyLength_eq]

theorem readLocalCache_wellFormed (file : Option (List UInt8)) :
    (readLocalCache env file).WellFormed env := by
  cases file with
  | none => exact wellFormed_empty
  | some bytes =>
    show (((readData env ⟨bytes, true⟩).map Prod.fst).getD {}).WellFormed env
    cases hread : readData env ⟨bytes, true⟩ with
    | none => exact wellFormed_empty
    | some read =>
      obtain ⟨version, _, -, h⟩ := bind_eq_some.mp hread
      obtain ⟨count, _, -, h⟩ := bind_eq_some.mp h
      obtain ⟨ok, _, -, h⟩ := bind_eq_some.mp h
      obtain ⟨_, _, -, h⟩ := bind_eq_some.mp h
      obtain ⟨result, _, hkeys, h⟩ := bind_eq_some.mp h
      have hresult := readKeys_wellFormed wellFormed_empty hkeys
      rw [← Option.some.inj h]
      exact ⟨hresult.entry_eq, hresult.maxKeyLength_eq⟩

/-! ### What was written is read back -/

theorem readTexts_append (hentry : ∀ e ∈ list, env.entry e.text = some e)
    (hlength : ∀ e ∈ list, e.text.length < 2 ^ 31) (rest : List UInt8) :
    readTexts env list.length ⟨list.flatMap (fun e => writeString e.text) ++ rest, true⟩ =
      some (list, ⟨rest, true⟩) := by
  induction list with
  | nil => rfl
  | cons e list ih =>
    obtain ⟨he, hentry⟩ := List.forall_mem_cons.mp hentry
    obtain ⟨hlt, hlength⟩ := List.forall_mem_cons.mp hlength
    rw [List.flatMap_cons, List.append_assoc, List.length_cons, readTexts,
      bind_some (readString_append hlt _), bind_some (status_eq _), stopUnless_true _ rfl,
      bind_some (lift_eq_some.mpr ⟨he, rfl⟩), bind_some (ih hentry hlength)]
    rfl

theorem toInt_size {n : Nat} (h : n < 2 ^ 31) :
    (Int32.ofNat n).toInt.toNat = n ∧ 0 ≤ Int32.ofNat n := by
  have hint := Int32.toInt_ofNat_of_lt h
  constructor
  · rw [hint, Int.toNat_natCast]
  · rw [Int32.le_iff_toInt_le, hint]
    exact Int.natCast_nonneg n

def serializeKey (pair : QString × List (LangPackEmoji Emoji)) : List UInt8 :=
  writeString pair.1 ++ writeInt32 (.ofNat pair.2.length) ++
    pair.2.flatMap fun emoji => writeString emoji.text

theorem readKeys_append {pairs : List (QString × List (LangPackEmoji Emoji))}
    (hentry : ∀ pair ∈ pairs, ∀ e ∈ pair.2, env.entry e.text = some e)
    (hkey : ∀ pair ∈ pairs, pair.1.length < 2 ^ 31) (hlist : ∀ pair ∈ pairs, pair.2.length < 2 ^ 31)
    (htext : ∀ pair ∈ pairs, ∀ e ∈ pair.2, e.text.length < 2 ^ 31)
    (hdistinct : (pairs.map Prod.fst).Nodup)
    (hnew : ∀ pair ∈ pairs, entriesOf result.emoji pair.1 = []) (rest : List UInt8) :
    readKeys env pairs.length result ⟨pairs.flatMap serializeKey ++ rest, true⟩ =
      some ({ result with
        emoji := pairs.foldl (fun emoji pair => emoji.insert pair.1 pair.2) result.emoji
        maxKeyLength := pairs.foldl (fun length pair => max length pair.1.length)
          result.maxKeyLength }, ⟨rest, true⟩) := by
  induction pairs generalizing result with
  | nil => rfl
  | cons pair pairs ih =>
    obtain ⟨hentry₁, hentry⟩ := List.forall_mem_cons.mp hentry
    obtain ⟨hkey₁, hkey⟩ := List.forall_mem_cons.mp hkey
    obtain ⟨hlist₁, hlist⟩ := List.forall_mem_cons.mp hlist
    obtain ⟨htext₁, htext⟩ := List.forall_mem_cons.mp htext
    obtain ⟨hnew₁, hnew⟩ := List.forall_mem_cons.mp hnew
    obtain ⟨hne, hdistinct⟩ := List.nodup_cons.mp hdistinct
    obtain ⟨hsize, hnonneg⟩ := toInt_size hlist₁
    rw [List.flatMap_cons, serializeKey, List.append_assoc, List.append_assoc, List.append_assoc,
      List.length_cons, readKeys, bind_some (readString_append hkey₁ _),
      bind_some (readInt32_append _ _ _), bind_some (status_eq _),
      stopUnless_true _ (by simpa using hnonneg), hsize,
      bind_some (readTexts_append hentry₁ htext₁ _)]
    rw [entriesOf] at hnew₁
    rw [hnew₁, List.nil_append]
    refine ih hentry hkey hlist htext hdistinct ?_
    intro other hother
    rw [entriesOf_insert, if_neg, hnew other hother]
    intro heq
    exact hne (List.mem_map.mpr ⟨other, hother, heq⟩)

theorem readLocalCache_serialize (h : data.WellFormed env) (hfits : data.Fits)
    (hversion : 0 ≤ data.version) : readLocalCache env (some (serialize data)) = data := by
  obtain ⟨hsize, hnonneg⟩ := toInt_size hfits.size_lt
  have hentry : ∀ pair ∈ data.emoji.toList, ∀ e ∈ pair.2, env.entry e.text = some e := by
    intro pair hpair e he
    apply h.entry_eq pair.1
    rw [entriesOf_of_some (ExtTreeMap.mem_toList_iff_getElem?_eq_some.mp hpair)]
    exact he
  have hdistinct : (data.emoji.toList.map Prod.fst).Nodup := by
    rw [ExtTreeMap.map_fst_toList_eq_keys]
    exact ExtTreeMap.nodup_keys
  have hkeys := @readKeys_append _ env {} _ hentry hfits.key_lt hfits.list_lt hfits.text_lt
    hdistinct (fun _ _ => rfl) []
  rw [ExtTreeMap.length_toList, List.append_nil] at hkeys
  have hread : readData env ⟨serialize data, true⟩ = some (data, ⟨[], true⟩) := by
    rw [readData, serialize, List.append_assoc, bind_some (readInt32_append _ _ _),
      bind_some (readInt32_append _ _ _), bind_some (status_eq _),
      stopUnless_true _ (by simp [hversion, hnonneg]), hsize]
    refine (bind_some hkeys).trans ?_
    have hlength : data.emoji.toList.foldl (fun length pair => max length pair.1.length) 0 =
        data.maxKeyLength := by
      rw [h.maxKeyLength_eq, maxLength, ← ExtTreeMap.map_fst_toList_eq_keys, List.foldl_map]
    rw [← ExtTreeMap.ofList_eq_foldl, ExtTreeMap.ofList_toList, hlength]
    rfl
  simp [readLocalCache, hread]

theorem readLocalCache_of_neg {version : Int32} (hversion : ¬ 0 ≤ version)
    (rest : List UInt8) : readLocalCache env (some (writeInt32 version ++ rest)) = {} := by
  have hread : readData env ⟨writeInt32 version ++ rest, true⟩ = none := by
    obtain ⟨count, s, hcount⟩ : ∃ count s, readInt32 ⟨rest, true⟩ = some (count, s) := ⟨_, _, rfl⟩
    rw [readData, bind_some (readInt32_append _ _ _), bind_some hcount, bind_some (status_eq _),
      stopUnless_false _ (by simp [hversion])]
  simp [readLocalCache, hread]

/-- What was written is read back if and only if there was something to write with a version that
is not negative, or the file that stays has it already. -/
theorem readLocalCache_writeLocalCache_iff (h : data.WellFormed env) (hfits : data.Fits)
    (opened : Bool) (file : Option (List UInt8)) :
    readLocalCache env (writeLocalCache opened data file) = data ↔
      data.IsCached env opened file := by
  rw [writeLocalCache, LangPackData.IsCached]
  cases hnothing : data.version = 0 && data.emoji.isEmpty with
  | true => simp
  | false =>
    cases opened with
    | false => simp
    | true =>
      simp only [Bool.false_eq_true, if_false, if_true, Bool.not_false, Bool.and_self]
      constructor
      · intro hread
        by_contra hversion
        rw [serialize, List.append_assoc, readLocalCache_of_neg hversion] at hread
        rw [← hread] at hversion
        exact hversion (Int32.le_refl 0)
      · exact readLocalCache_serialize h hfits

end

end TelegramClient.ChatHelpers
