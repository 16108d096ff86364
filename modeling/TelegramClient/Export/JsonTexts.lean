import TelegramClient.Export.JsonObjects

/-! Texts are written as JSON, if and only if the strings of their parts are. -/

namespace TelegramClient.Export.JsonWriter

open Utf8 Json

variable {context : Context}

/-- What is told of a part besides its type and its text. -/
inductive AdditionalMembers (part : TextPart) : List (List Char × Value) → Prop
  | noUser (htype : part.type = .mentionName) (h : part.additional = []) :
      AdditionalMembers part []
  | user (v : Value) (htype : part.type = .mentionName) (h : IsText part.additional v) :
      AdditionalMembers part [("user_id".toList, v)]
  | language (text : List Char) (htype : part.type = .pre) (h : part.additional = encode text) :
      AdditionalMembers part [("language".toList, .string text)]
  | href (text : List Char) (htype : part.type = .textUrl) (h : part.additional = encode text) :
      AdditionalMembers part [("href".toList, .string text)]
  | nothing (hmention : part.type ≠ .mentionName) (hpre : part.type ≠ .pre)
      (hurl : part.type ≠ .textUrl) : AdditionalMembers part []

/-- What a part means: a string, or an object with its type. -/
inductive PartValue (part : TextPart) : Value → Prop
  | plain (text : List Char) (htype : part.type = .text) (h : part.text = encode text) :
      PartValue part (.string text)
  | entity (text : List Char) (additional : List (List Char × Value)) (htype : part.type ≠ .text)
      (h : part.text = encode text) (hadditional : AdditionalMembers part additional) :
      PartValue part (.object (("type".toList, .string (typeString part.type).toList) ::
        ("text".toList, .string text) :: additional))

/-- What a text means: a string if there is no other part, or an array. -/
inductive TextValue : List TextPart → Value → Prop
  | empty : TextValue [] (.string [])
  | plain (part : TextPart) (v : Value) (htype : part.type = .text) (h : PartValue part v) :
      TextValue [part] v
  | parts (data : List TextPart) (vs : List Value) (hne : data ≠ [])
      (hmany : ∀ part, data = [part] → part.type ≠ .text) (h : List.Forall₂ PartValue data vs) :
      TextValue data (.array vs)

structure HasAdditional (part : TextPart) : Prop where
  user : part.type = .mentionName → part.additional = [] ∨ ∃ v, IsText part.additional v
  link : part.type = .pre ∨ part.type = .textUrl →
    ∃ text, part.additional = encode text ∧ ∀ c ∈ text, isClean c = true

/-- Whatever is written of a part is clean. -/
structure IsWritten (part : TextPart) : Prop extends HasAdditional part where
  text : ∃ text, part.text = encode text ∧ ∀ c ∈ text, isClean c = true

def partBytes (size : Nat) (part : TextPart) : Bytes :=
  if part.type = .text then serializeString part.text
  else objectBytes size
    [(ascii "type", serializeString (ascii (typeString part.type))),
      (ascii "text", serializeString part.text),
      (ascii (additionalName part.type), additionalValue part)]

theorem serializePart_eq (part : TextPart) :
    serializePart part context = (partBytes context.nesting.length part, context) := by
  rw [serializePart, partBytes]
  split
  · rfl
  · exact serializeObject_eq _

theorem bind_eq {α β : Type} {x : StateM Context α} {f : α → StateM Context β} {a : α}
    {context' : Context} (h : x context = (a, context')) : (x >>= f) context = f a context' := by
  change f (x context).1 (x context).2 = _
  rw [h]

theorem mapM_serializePart (data : List TextPart) :
    data.mapM serializePart context =
      (data.map (partBytes context.nesting.length), context) := by
  induction data with
  | nil => rfl
  | cons part data ih =>
    rw [List.mapM_cons, bind_eq (serializePart_eq part), bind_eq ih]
    rfl

def textBytes (size : Nat) : List TextPart → Bytes
  | [] => serializeString []
  | [part] =>
    if part.type = .text then partBytes (size + 1) part
    else arrayBytes size [partBytes (size + 1) part]
  | part :: other :: data => arrayBytes size ((part :: other :: data).map (partBytes (size + 1)))

theorem serializeText_eq (data : List TextPart) :
    serializeText data context = (textBytes context.nesting.length data, context) := by
  by_cases hnil : data = []
  · rw [hnil]
    rfl
  · have hlength : (context.push .kArray).nesting.length = context.nesting.length + 1 := by
      simp [Context.push]
    have hparts := @mapM_serializePart (context.push .kArray) data
    rw [hlength] at hparts
    have hpush : (modify (Context.push .kArray) : StateM Context PUnit) context =
        (⟨⟩, context.push .kArray) := rfl
    have hpop : (modify Context.pop : StateM Context PUnit) (context.push .kArray) =
        (⟨⟩, context) := congrArg (Prod.mk _) (pop_push _)
    rw [serializeText, if_neg hnil, bind_eq hpush, bind_eq hparts, bind_eq hpop]
    rcases data with _ | ⟨part, _ | ⟨other, data⟩⟩
    · exact absurd rfl hnil
    · show (if part.type = .text then pure (partBytes _ part) else serializeArray _) context = _
      rw [textBytes]
      split
      · rfl
      · exact serializeArray_eq _
    · exact serializeArray_eq _

theorem typeString_clean (type : TextType) :
    ∀ c ∈ (typeString type).toList, isClean c = true := by
  cases type <;> simp [typeString, isClean, isSeparator]

theorem additionalName_clean (type : TextType) :
    ∀ c ∈ (additionalName type).toList, isClean c = true := by
  cases type <;> simp [additionalName, isClean, isSeparator]

def stringText (text : List Char) (h : ∀ c ∈ text, isClean c = true) : Text :=
  ⟨serializeString (encode text), .string text,
    isText_of_value (.string _ _ (serializeString_isString h))⟩

variable {part : TextPart} {additional : List (List Char × Value)}

/-- What is told of a part besides its text is a JSON text, or nothing. -/
theorem exists_additional (h : HasAdditional part) : ∃ value : Option Text,
    additionalValue part = valueBytes value ∧
      AdditionalMembers part (members [((additionalName part.type).toList, value)]) := by
  obtain ⟨huser, hlink⟩ := h
  rw [additionalValue]
  cases htype : part.type with
  | mentionName =>
    cases huser htype with
    | inl hempty => exact ⟨none, hempty, .noUser htype hempty⟩
    | inr hvalue =>
      obtain ⟨v, hv⟩ := hvalue
      exact ⟨some ⟨part.additional, v, hv⟩, rfl, .user v htype hv⟩
  | pre =>
    obtain ⟨text, heq, hclean⟩ := hlink (.inl htype)
    rw [heq]
    exact ⟨some (stringText text hclean), rfl, .language text htype heq⟩
  | textUrl =>
    obtain ⟨text, heq, hclean⟩ := hlink (.inr htype)
    rw [heq]
    exact ⟨some (stringText text hclean), rfl, .href text htype heq⟩
  | _ => exact ⟨none, rfl, .nothing (by simp [htype]) (by simp [htype]) (by simp [htype])⟩

theorem partBytes_isText (size : Nat) (h : IsWritten part) :
    ∃ v, PartValue part v ∧ IsText (partBytes size part) v := by
  obtain ⟨text, htext, hclean⟩ := h.text
  rw [partBytes, htext]
  split
  · next htype =>
    exact ⟨_, .plain text htype htext, (stringText text hclean).isText⟩
  · next htype =>
    obtain ⟨value, hbytes, hmembers⟩ := exists_additional h.toHasAdditional
    rw [hbytes]
    refine ⟨_, .entity text _ htype htext hmembers, ?_⟩
    have hobject := @objectBytes_isText size
      [("type".toList, some (stringText _ (typeString_clean part.type))),
        ("text".toList, some (stringText text hclean)),
        ((additionalName part.type).toList, value)]
    refine hobject ?_
    intro entry hentry
    obtain ⟨other, hother, hkept⟩ := List.mem_filterMap.mp hentry
    obtain ⟨_, -, rfl⟩ := Option.map_eq_some_iff.mp hkept
    simp only [List.mem_cons, List.not_mem_nil, or_false] at hother
    rcases hother with rfl | rfl | rfl
    · simp [isClean, isSeparator]
    · simp [isClean, isSeparator]
    · exact additionalName_clean part.type

/-- What is told of a part besides its text is right, or the reader stops in it. -/
theorem additional_or_bad (h : AdditionalMembers part additional) :
    HasAdditional part ∨ additionalValue part ≠ [] ∧ Bad (additionalValue part) := by
  have hstring : ∀ text, part.additional = encode text →
      additionalValue part = serializeString part.additional → part.type ≠ .mentionName →
      HasAdditional part ∨ additionalValue part ≠ [] ∧ Bad (additionalValue part) := by
    intro text heq hvalue hmention
    cases clean_or_unclean text with
    | inl hclean =>
      exact .inl ⟨fun htype => absurd htype hmention, fun _ => ⟨text, heq, hclean⟩⟩
    | inr hunclean =>
      rw [hvalue, heq]
      exact .inr ⟨List.cons_ne_nil _ _, serializeString_bad hunclean⟩
  cases h with
  | noUser htype h => exact .inl ⟨fun _ => .inl h, by simp [htype]⟩
  | user v htype h => exact .inl ⟨fun _ => .inr ⟨v, h⟩, by simp [htype]⟩
  | language text htype h =>
    exact hstring text h (by simp [additionalValue, htype]) (by simp [htype])
  | href text htype h =>
    exact hstring text h (by simp [additionalValue, htype]) (by simp [htype])
  | nothing hmention hpre hurl =>
    refine .inl ⟨fun htype => absurd htype hmention, ?_⟩
    rintro (htype | htype)
    · exact absurd htype hpre
    · exact absurd htype hurl

theorem HasAdditional.good (h : HasAdditional part) (hne : additionalValue part ≠ []) :
    Good (additionalValue part) := by
  obtain ⟨value, hbytes, -⟩ := exists_additional h
  rw [hbytes] at hne ⊢
  cases value with
  | none => exact absurd rfl hne
  | some text => exact good_of_isText text.isText

theorem written_or_bad {v : Value} (size : Nat) (h : PartValue part v) :
    IsWritten part ∨ Bad (partBytes size part) := by
  rw [partBytes]
  cases h with
  | plain text htype htext =>
    rw [if_pos htype, htext]
    cases clean_or_unclean text with
    | inl hclean => exact .inl ⟨⟨by simp [htype], by simp [htype]⟩, text, htext, hclean⟩
    | inr hunclean => exact .inr (serializeString_bad hunclean)
  | entity text additional htype htext hadditional =>
    rw [if_neg htype, htext]
    have hmember : ∀ (literal : String) (value : Bytes),
        (∀ c ∈ literal.toList, isClean c = true) → Good value ∨ Bad value →
          Good (memberBytes (ascii literal, value)) ∨ Bad (memberBytes (ascii literal, value)) := by
      intro literal value hclean hvalue
      exact hvalue.imp (member_good hclean) fun hbad => member_bad (.inr hbad)
    have hstring : ∀ text : List Char,
        Good (serializeString (encode text)) ∨ Bad (serializeString (encode text)) := fun text =>
      (clean_or_unclean text).imp serializeString_good_iff.mpr serializeString_bad
    have hcases := additional_or_bad hadditional
    have hitems : ∀ pair ∈ [(ascii "type", serializeString (ascii (typeString part.type))),
        (ascii "text", serializeString (encode text)),
        (ascii (additionalName part.type), additionalValue part)], pair.2 ≠ [] →
          Good (memberBytes pair) ∨ Bad (memberBytes pair) := by
      intro pair hpair hne
      simp only [List.mem_cons, List.not_mem_nil, or_false] at hpair
      rcases hpair with rfl | rfl | rfl
      · exact hmember _ _ (by simp [isClean, isSeparator]) (hstring _)
      · exact hmember _ _ (by simp [isClean, isSeparator]) (hstring _)
      · exact hmember _ _ (additionalName_clean _) (hcases.imp (fun h => h.good hne) And.right)
    cases clean_or_unclean text with
    | inr hunclean =>
      exact .inr (objectBytes_bad hitems ⟨(ascii "text", serializeString (encode text)), by simp,
        List.cons_ne_nil _ _, member_bad (.inr (serializeString_bad hunclean))⟩)
    | inl hclean =>
      cases hcases with
      | inl hadditional => exact .inl ⟨hadditional, text, htext, hclean⟩
      | inr hbad =>
        exact .inr (objectBytes_bad hitems
          ⟨(ascii (additionalName part.type), additionalValue part), by simp, hbad.1,
            member_bad (.inr hbad.2)⟩)

variable {data : List TextPart}

theorem exists_partTexts (size : Nat) (h : ∀ part ∈ data, IsWritten part) :
    ∃ texts : List Text, data.map (partBytes size) = texts.map Text.bytes ∧
      List.Forall₂ PartValue data (texts.map Text.value) := by
  induction data with
  | nil => exact ⟨[], rfl, .nil⟩
  | cons part data ih =>
    obtain ⟨hpart, hdata⟩ := List.forall_mem_cons.mp h
    obtain ⟨v, hv, htext⟩ := partBytes_isText size hpart
    obtain ⟨texts, hbytes, hvalues⟩ := ih hdata
    refine ⟨⟨_, v, htext⟩ :: texts, ?_, .cons hv hvalues⟩
    rw [List.map_cons, List.map_cons, hbytes]

theorem parts_written {vs : List Value} (size : Nat) (h : List.Forall₂ PartValue data vs)
    (hgood : Good (arrayBytes size (data.map (partBytes (size + 1))))) :
    ∀ part ∈ data, IsWritten part := by
  have hcases : ∀ part ∈ data, IsWritten part ∨ Bad (partBytes (size + 1) part) := by
    clear hgood
    induction h with
    | nil => simp
    | cons hpart _ ih => exact List.forall_mem_cons.mpr ⟨written_or_bad _ hpart, ih⟩
  by_contra hnot
  have hbad : ∃ part ∈ data, ¬ IsWritten part := by simpa using hnot
  obtain ⟨part, hpart, hnot⟩ := hbad
  refine hgood.not_bad ?_
  intro s hs
  have hbracket : step s 0x5B = some .opened := by cases s <;> first | rfl | cases hs
  rw [arrayBytes, List.cons_append, scan_cons hbracket]
  apply scan_joined_none (isSpace_line _) _ _ rfl
  · intro l hl
    obtain ⟨other, hother, rfl⟩ := List.mem_map.mp hl
    refine (hcases other hother).imp_left ?_
    intro hwritten
    obtain ⟨v, -, htext⟩ := partBytes_isText (size + 1) hwritten
    exact good_of_isText htext
  · exact ⟨_, List.mem_map_of_mem hpart, (hcases part hpart).resolve_left hnot⟩

theorem textBytes_iff (size : Nat) (data : List TextPart) :
    (∃ v, TextValue data v ∧ IsText (textBytes size data) v) ↔ ∀ part ∈ data, IsWritten part := by
  have hmany : ∀ data : List TextPart, data ≠ [] →
      (∀ part, data = [part] → part.type ≠ .text) →
      textBytes size data = arrayBytes size (data.map (partBytes (size + 1))) := by
    intro data hne htype
    rcases data with _ | ⟨part, _ | ⟨other, data⟩⟩
    · exact absurd rfl hne
    · exact if_neg (htype part rfl)
    · rfl
  constructor
  · rintro ⟨v, hvalue, htext⟩
    have hgood := good_of_isText htext
    cases hvalue with
    | empty => simp
    | plain part v htype h =>
      rw [textBytes, if_pos htype] at hgood
      intro other hother
      rw [List.mem_singleton.mp hother]
      exact (written_or_bad _ h).resolve_right hgood.not_bad
    | parts _ vs hne htype h =>
      rw [hmany data hne htype] at hgood
      exact parts_written size h hgood
  · intro h
    by_cases hnil : data = []
    · subst hnil
      exact ⟨_, .empty, (stringText [] (List.forall_mem_nil _)).isText⟩
    · by_cases hplain : ∃ part, data = [part] ∧ part.type = .text
      · obtain ⟨part, rfl, htype⟩ := hplain
        obtain ⟨v, hv, htext⟩ := partBytes_isText (size + 1) (h part (List.mem_singleton_self part))
        rw [textBytes, if_pos htype]
        exact ⟨v, .plain part v htype hv, htext⟩
      · have htype : ∀ part, data = [part] → part.type ≠ .text := by
          intro part heq htype
          exact hplain ⟨part, heq, htype⟩
        obtain ⟨texts, hbytes, hvalues⟩ := exists_partTexts (size + 1) h
        rw [hmany data hnil htype, hbytes]
        exact ⟨_, .parts data _ hnil htype hvalues, arrayBytes_isText size texts⟩

/-- What is written is JSON with the right value if and only if its strings are clean, and the
context stays. -/
theorem json_iff (value : List Char) (entries : List (List Char × Option Text))
    (values : List (Option Text)) (data : List TextPart) (context : Context) :
    (IsString (serializeString (encode value)) value ↔ ∀ c ∈ value, isClean c = true) ∧
    (IsText (serializeObject (written entries) context).1 (.object (members entries)) ↔
      ∀ entry ∈ kept entries, ∀ c ∈ entry.1, isClean c = true) ∧
    (IsText (serializeArray (values.map valueBytes) context).1
        (.array (values.filterMap fun v => v.map Text.value)) ↔
      (∀ v ∈ values, v.isSome = true) ∨ values = [none]) ∧
    ((∃ v, TextValue data v ∧ IsText (serializeText data context).1 v) ↔
      ∀ part ∈ data, IsWritten part) ∧
    (serializeObject (written entries) context).2 = context ∧
    (serializeArray (values.map valueBytes) context).2 = context ∧
    (serializeText data context).2 = context := by
  rw [serializeObject_eq, serializeArray_eq, serializeText_eq]
  exact ⟨isString_iff, objectBytes_iff _ entries, arrayBytes_iff _ values, textBytes_iff _ data,
    rfl, rfl, rfl⟩

/-- A control character is written with an escape that JSON does not have. -/
theorem escapeCharacter_invalid :
    ¬ ∀ value : List Char, IsString (serializeString (encode value)) value := by
  intro h
  have hclean := isString_iff.mp (h ['\x1b']) _ (List.mem_singleton_self _)
  revert hclean
  decide

end TelegramClient.Export.JsonWriter
