import TelegramClient.Export.JsonStrings

/-! Objects and arrays are written as JSON, if their keys are and their values are JSON. -/

namespace TelegramClient.Export.JsonWriter

open Utf8 Json

variable {l next item : Bytes} {key : List Char} {s : State} {items : List Bytes}
  {context : Context}

/-! ### Lists with commas -/

/-- What both loops write: the values on lines of their own with commas between them. -/
def joined (next : Bytes) : List Bytes → Bytes
  | [] => []
  | [value] => next ++ value
  | value :: other :: values => next ++ value ++ 0x2C :: joined next (other :: values)

theorem joined_cons (h : items ≠ []) :
    joined next (item :: items) = next ++ item ++ 0x2C :: joined next items := by
  cases items with
  | nil => exact absurd rfl h
  | cons other items => rfl

theorem foldl_appendValue (result : Bytes) : (items.foldl (appendValue next) (true, result)).2 =
    result ++ joined next items := by
  have hnext : ∀ (items : List Bytes) (result : Bytes), items ≠ [] →
      (items.foldl (appendValue next) (false, result)).2 = result ++ 0x2C :: joined next items := by
    intro items
    induction items with
    | nil =>
      intro result hne
      exact absurd rfl hne
    | cons item items ih =>
      intro result _
      by_cases hnil : items = []
      · simp [hnil, appendValue, joined]
      · rw [List.foldl_cons, joined_cons hnil]
        simp [appendValue, ih _ hnil]
  cases items with
  | nil => simp [joined]
  | cons item items =>
    by_cases hnil : items = []
    · simp [hnil, appendValue, joined]
    · rw [List.foldl_cons, joined_cons hnil]
      simp [appendValue, hnext _ _ hnil]

def memberBytes (pair : Bytes × Bytes) : Bytes :=
  serializeString pair.1 ++ ascii ": " ++ pair.2

theorem foldl_appendMember (values : List (Bytes × Bytes)) (s : Bool × Bytes) :
    values.foldl (appendMember next) s =
      ((values.filter fun pair => pair.2 ≠ []).map memberBytes).foldl (appendValue next) s := by
  induction values generalizing s with
  | nil => rfl
  | cons pair values ih =>
    by_cases hempty : pair.2 = []
    · simp [appendMember, hempty, ih]
    · simp [appendMember, hempty, ih, memberBytes]

/-- The lines that end an object or an array. -/
def closing (size : Nat) (bracket : UInt8) : Bytes := 0x0A :: indentation size ++ [bracket]

def objectBytes (size : Nat) (values : List (Bytes × Bytes)) : Bytes :=
  0x7B :: joined (0x0A :: indentation (size + 1))
    ((values.filter fun pair => pair.2 ≠ []).map memberBytes) ++ closing size 0x7D

def arrayBytes (size : Nat) (values : List Bytes) : Bytes :=
  0x5B :: joined (0x0A :: indentation (size + 1)) values ++ closing size 0x5D

theorem pop_push (type : ContextType) : (context.push type).pop = context := by
  simp [Context.push, Context.pop]

theorem serializeObject_eq (values : List (Bytes × Bytes)) :
    serializeObject values context = (objectBytes context.nesting.length values, context) := by
  have hlength : (context.push .kObject).nesting.length = context.nesting.length + 1 := by
    simp [Context.push]
  show (_, (context.push .kObject).pop) = _
  rw [pop_push, hlength, foldl_appendMember, foldl_appendValue]
  simp [objectBytes, closing]

theorem serializeArray_eq (values : List Bytes) :
    serializeArray values context = (arrayBytes context.nesting.length values, context) := by
  show (_, context) = _
  rw [foldl_appendValue]
  simp [arrayBytes, closing]

theorem isSpace_line (size : Nat) : IsSpace (0x0A :: indentation size) := by
  intro b hb
  rw [List.mem_cons, indentation, List.mem_replicate] at hb
  rcases hb with rfl | ⟨-, rfl⟩
  · rfl
  · rfl

theorem isText_space {v : Value} {space after : Bytes} (hspace : IsSpace space) (h : IsText l v)
    (hafter : IsSpace after) : IsText (space ++ l ++ after) v := by
  cases h with
  | text before l after' v hbefore h hafter' =>
    have hall : space ++ (before ++ l ++ after') ++ after =
        (space ++ before) ++ l ++ (after' ++ after) := by simp
    rw [hall]
    refine .text _ _ _ _ ?_ h ?_
    · exact List.forall_mem_append.mpr ⟨hspace, hbefore⟩
    · exact List.forall_mem_append.mpr ⟨hafter', hafter⟩

/-! ### Objects -/

theorem member_derives {v : Value} {after : Bytes} (hnext : IsSpace next) (hafter : IsSpace after)
    (hkey : ∀ c ∈ key, isClean c = true) (h : IsText l v) :
    Derives (next ++ memberBytes (encode key, l) ++ after) (.member key v) := by
  have hblank : IsSpace [0x20] := by
    intro b hb
    rw [List.mem_singleton.mp hb]
    rfl
  have hnone : IsSpace [] := List.forall_mem_nil _
  have htext : IsText ([0x20] ++ l ++ after) v := isText_space hblank h hafter
  have hall := Derives.member next (serializeString (encode key)) [] ([0x20] ++ l ++ after) key v
    hnext (serializeString_isString hkey) hnone htext
  have hcolon : ascii ": " = [0x3A, 0x20] := by decide
  simpa [memberBytes, hcolon] using hall

theorem member_good (hkey : ∀ c ∈ key, isClean c = true) (h : Good l) :
    Good (memberBytes (encode key, l)) := by
  have hcolon : ascii ": " = [0x3A, 0x20] := by decide
  intro s hs
  rw [memberBytes, hcolon, List.append_assoc, scan_append (serializeString_good_iff.mpr hkey s hs)]
  exact h .separated rfl

theorem member_bad (h : (∃ c ∈ key, isClean c = false) ∨ Bad l) :
    Bad (memberBytes (encode key, l)) := by
  have hcolon : ascii ": " = [0x3A, 0x20] := by decide
  intro s hs
  rw [memberBytes, hcolon, List.append_assoc]
  cases clean_or_unclean key with
  | inl hclean =>
    rw [scan_append (serializeString_good_iff.mpr hclean s hs)]
    refine h.resolve_left ?_ .separated rfl
    rintro ⟨c, hc, hunclean⟩
    rw [hclean c hc] at hunclean
    cases hunclean
  | inr hunclean => exact scan_append_none (serializeString_bad hunclean s hs)

theorem scan_joined_none (hnext : IsSpace next) (hitems : ∀ l ∈ items, Good l ∨ Bad l)
    (hbad : ∃ l ∈ items, Bad l) (hs : s.isOutside = true) (rest : Bytes) :
    scan s (joined next items ++ rest) = none := by
  induction items generalizing s with
  | nil =>
    obtain ⟨l, hl, -⟩ := hbad
    cases hl
  | cons l items ih =>
    obtain ⟨hl, hitems⟩ := List.forall_mem_cons.mp hitems
    have hfirst : Bad l → scan s (joined next (l :: items) ++ rest) = none := by
      intro h
      by_cases hnil : items = []
      · rw [hnil, joined, List.append_assoc, scan_append (scan_space hnext hs),
          scan_append_none (h s hs)]
      · rw [joined_cons hnil, List.append_assoc, List.append_assoc,
          scan_append (scan_space hnext hs), scan_append_none (h s hs)]
    cases hl with
    | inr h => exact hfirst h
    | inl h =>
      obtain ⟨m, hm, hbad⟩ := hbad
      cases List.mem_cons.mp hm with
      | inl hsame =>
        rw [hsame] at hbad
        exact hfirst hbad
      | inr hm =>
        have hcomma : step .ready 0x2C = some .separated := rfl
        rw [joined_cons (List.ne_nil_of_mem hm), List.append_assoc, List.append_assoc,
          scan_append (scan_space hnext hs), scan_append (h s hs), List.cons_append,
          scan_cons hcomma]
        exact ih hitems ⟨m, hm, hbad⟩ rfl

theorem objectBytes_bad {size : Nat} {values : List (Bytes × Bytes)}
    (hitems : ∀ pair ∈ values, pair.2 ≠ [] → Good (memberBytes pair) ∨ Bad (memberBytes pair))
    (hbad : ∃ pair ∈ values, pair.2 ≠ [] ∧ Bad (memberBytes pair)) :
    Bad (objectBytes size values) := by
  intro s hs
  have hfirst : step s 0x7B = some .opened := by cases s <;> first | rfl | cases hs
  rw [objectBytes, List.cons_append, scan_cons hfirst]
  apply scan_joined_none (isSpace_line _) _ _ rfl
  · intro l hl
    obtain ⟨pair, hpair, rfl⟩ := List.mem_map.mp hl
    obtain ⟨hpair, hne⟩ := List.mem_filter.mp hpair
    exact hitems pair hpair (of_decide_eq_true hne)
  · obtain ⟨pair, hpair, hne, hbad⟩ := hbad
    exact ⟨_, List.mem_map_of_mem (List.mem_filter.mpr ⟨hpair, decide_eq_true hne⟩), hbad⟩

theorem members_derives {kept : List (List Char × Text)} {after : Bytes} (hnext : IsSpace next)
    (hafter : IsSpace after) (hne : kept ≠ [])
    (hkeys : ∀ pair ∈ kept, ∀ c ∈ pair.1, isClean c = true) :
    Derives (joined next (kept.map fun pair => memberBytes (encode pair.1, pair.2.bytes)) ++ after)
      (.members (kept.map fun pair => (pair.1, pair.2.value))) := by
  induction kept with
  | nil => exact absurd rfl hne
  | cons pair kept ih =>
    obtain ⟨hkey, hkeys⟩ := List.forall_mem_cons.mp hkeys
    by_cases hnil : kept = []
    · rw [hnil]
      exact .oneMember _ _ _ (member_derives hnext hafter hkey pair.2.isText)
    · have hmember := @member_derives _ _ _ _ [] hnext (List.forall_mem_nil _) hkey pair.2.isText
      rw [List.append_nil] at hmember
      rw [List.map_cons, joined_cons (by simpa using hnil), List.append_assoc, List.cons_append]
      exact .members _ _ _ _ _ hmember (ih hnil hkeys)

def valueBytes : Option Text → Bytes
  | none => []
  | some text => text.bytes

/-- Keys with values as they are passed to the writer. -/
def written (entries : List (List Char × Option Text)) : List (Bytes × Bytes) :=
  entries.map fun entry => (encode entry.1, valueBytes entry.2)

def kept (entries : List (List Char × Option Text)) : List (List Char × Text) :=
  entries.filterMap fun entry => entry.2.map fun text => (entry.1, text)

def members (entries : List (List Char × Option Text)) : List (List Char × Value) :=
  (kept entries).map fun entry => (entry.1, entry.2.value)

theorem filter_written (entries : List (List Char × Option Text)) :
    (written entries).filter (fun pair => pair.2 ≠ []) =
      (kept entries).map fun entry => (encode entry.1, entry.2.bytes) := by
  induction entries with
  | nil => rfl
  | cons entry entries ih =>
    have hcons : written (entry :: entries) =
        (encode entry.1, valueBytes entry.2) :: written entries := rfl
    cases hvalue : entry.2 with
    | none => simpa [hcons, hvalue, kept, valueBytes] using ih
    | some text => simpa [hcons, hvalue, kept, valueBytes, text.ne_nil] using ih

theorem isText_of_value {v : Value} (h : Derives l (.value v)) : IsText l v := by
  have htext := Derives.text [] l [] v (List.forall_mem_nil _) h (List.forall_mem_nil _)
  rw [List.nil_append, List.append_nil] at htext
  exact htext

theorem objectBytes_isText {size : Nat} {entries : List (List Char × Option Text)}
    (hkeys : ∀ entry ∈ kept entries, ∀ c ∈ entry.1, isClean c = true) :
    IsText (objectBytes size (written entries)) (.object (members entries)) := by
  apply isText_of_value
  rw [objectBytes, filter_written, List.map_map]
  by_cases hnil : kept entries = []
  · have hempty := Derives.emptyObject (0x0A :: indentation size) (isSpace_line size)
    rw [members, hnil]
    exact hempty
  · have hmembers := members_derives (isSpace_line (size + 1)) (isSpace_line size) hnil hkeys
    have hobject := Derives.object _ _ hmembers
    rw [← List.cons_append, List.append_assoc] at hobject
    exact hobject

theorem objectBytes_iff (size : Nat) (entries : List (List Char × Option Text)) :
    IsText (objectBytes size (written entries)) (.object (members entries)) ↔
      ∀ entry ∈ kept entries, ∀ c ∈ entry.1, isClean c = true := by
  constructor
  · intro h
    by_contra hkeys
    have hbad : ∃ entry ∈ kept entries, ∃ c ∈ entry.1, isClean c = false := by simpa using hkeys
    obtain ⟨entry, hentry, hunclean⟩ := hbad
    have hmem : ∀ entry ∈ kept entries, (encode entry.1, entry.2.bytes) ∈ written entries := by
      intro entry hentry
      have hfilter : (encode entry.1, entry.2.bytes) ∈
          (written entries).filter (fun pair => pair.2 ≠ []) := by
        rw [filter_written]
        exact List.mem_map_of_mem (f := fun e : List Char × Text => (encode e.1, e.2.bytes)) hentry
      exact (List.mem_filter.mp hfilter).1
    refine (good_of_isText h).not_bad (objectBytes_bad ?_ ?_)
    · intro pair hpair hne
      obtain ⟨other, -, rfl⟩ := List.mem_map.mp hpair
      cases hvalue : other.2 with
      | none =>
        rw [hvalue] at hne
        exact absurd rfl hne
      | some text =>
        cases clean_or_unclean other.1 with
        | inl hclean => exact .inl (member_good hclean (good_of_isText text.isText))
        | inr hunclean => exact .inr (member_bad (.inl hunclean))
    · exact ⟨_, hmem entry hentry, entry.2.ne_nil, member_bad (.inl hunclean)⟩
  · exact objectBytes_isText

/-! ### Arrays -/

theorem elements_derives {texts : List Text} {after : Bytes} (hnext : IsSpace next)
    (hafter : IsSpace after) (hne : texts ≠ []) :
    Derives (joined next (texts.map Text.bytes) ++ after) (.elements (texts.map Text.value)) := by
  induction texts with
  | nil => exact absurd rfl hne
  | cons text texts ih =>
    by_cases hnil : texts = []
    · rw [hnil]
      exact .oneElement _ _ (isText_space hnext text.isText hafter)
    · have htext := isText_space hnext text.isText (List.forall_mem_nil _)
      rw [List.append_nil] at htext
      rw [List.map_cons, joined_cons (by simpa using hnil), List.append_assoc, List.cons_append]
      exact .elements _ _ _ _ htext (ih hnil)

theorem arrayBytes_isText (size : Nat) (texts : List Text) :
    IsText (arrayBytes size (texts.map Text.bytes)) (.array (texts.map Text.value)) := by
  apply isText_of_value
  rw [arrayBytes]
  by_cases hnil : texts = []
  · rw [hnil]
    exact Derives.emptyArray (0x0A :: indentation size) (isSpace_line size)
  · have harray := Derives.array _ _
      (elements_derives (isSpace_line (size + 1)) (isSpace_line size) hnil)
    rw [← List.cons_append, List.append_assoc] at harray
    exact harray

/-- The reader stops where a value is left out, unless it is the only one. -/
theorem some_of_scan {size : Nat} {values : List (Option Text)} (hnext : IsSpace next)
    (hs : s = .opened ∨ s = .separated)
    (h : scan s (joined next (values.map valueBytes) ++ closing size 0x5D) = some .ready) :
    (∀ v ∈ values, v.isSome = true) ∨ s = .opened ∧ values = [none] := by
  induction values generalizing s with
  | nil => simp
  | cons v values ih =>
    have houtside : s.isOutside = true := by
      rcases hs with rfl | rfl <;> rfl
    have hcomma : step .ready 0x2C = some .separated := rfl
    by_cases hnil : values = []
    · subst hnil
      cases v with
      | some text => simp
      | none =>
        rcases hs with rfl | rfl
        · exact .inr ⟨rfl, rfl⟩
        · have hclosing : scan .separated (closing size 0x5D) = none := by
            rw [closing, scan_append (scan_space (isSpace_line size) rfl)]
            rfl
          have hjoined : joined next ([none].map valueBytes) = next ++ [] := rfl
          rw [hjoined, List.append_nil, scan_append (scan_space hnext rfl), hclosing] at h
          cases h
    · rw [List.map_cons, joined_cons (by simpa using hnil), List.append_assoc, List.append_assoc,
        scan_append (scan_space hnext houtside)] at h
      cases v with
      | some text =>
        rw [valueBytes, scan_append (text.isText.scan houtside), List.cons_append,
          scan_cons hcomma] at h
        cases ih (.inr rfl) h with
        | inl hall => exact .inl (List.forall_mem_cons.mpr ⟨rfl, hall⟩)
        | inr hnone => cases hnone.1
      | none =>
        have hstop : step s 0x2C = none := by
          rcases hs with rfl | rfl <;> rfl
        rw [valueBytes, List.nil_append, List.cons_append, scan, List.foldlM_cons, hstop] at h
        cases h

theorem exists_texts {values : List (Option Text)} (h : ∀ v ∈ values, v.isSome = true) :
    ∃ texts : List Text, values = texts.map some := by
  induction values with
  | nil => exact ⟨[], rfl⟩
  | cons v values ih =>
    obtain ⟨hv, hvalues⟩ := List.forall_mem_cons.mp h
    obtain ⟨text, rfl⟩ := Option.isSome_iff_exists.mp hv
    obtain ⟨texts, rfl⟩ := ih hvalues
    exact ⟨text :: texts, rfl⟩

/-- An array is written as JSON if and only if no value of it is empty, or there is no other. -/
theorem arrayBytes_iff (size : Nat) (values : List (Option Text)) :
    IsText (arrayBytes size (values.map valueBytes))
        (.array (values.filterMap fun v => v.map Text.value)) ↔
      (∀ v ∈ values, v.isSome = true) ∨ values = [none] := by
  constructor
  · intro h
    have hscan := h.scan (s := .opened) rfl
    have hbracket : step .opened 0x5B = some .opened := rfl
    rw [arrayBytes, List.cons_append, scan_cons hbracket] at hscan
    exact (some_of_scan (isSpace_line _) (.inl rfl) hscan).imp_right And.right
  · intro h
    cases h with
    | inl hall =>
      obtain ⟨texts, rfl⟩ := exists_texts hall
      have harray := arrayBytes_isText size texts
      have hbytes : (texts.map some).map valueBytes = texts.map Text.bytes := by
        rw [List.map_map]
        rfl
      have hvalues : (texts.map some).filterMap (fun v => v.map Text.value) =
          texts.map Text.value := by
        simp [List.filterMap_map]
      rw [hbytes, hvalues]
      exact harray
    | inr hnone =>
      have hspace : IsSpace (0x0A :: indentation (size + 1) ++ 0x0A :: indentation size) :=
        List.forall_mem_append.mpr ⟨isSpace_line _, isSpace_line _⟩
      have hempty := isText_of_value (Derives.emptyArray _ hspace)
      rw [hnone]
      simpa [arrayBytes, joined, valueBytes, closing] using hempty

end TelegramClient.Export.JsonWriter
