import TelegramClient.Lib.Utf8
import TelegramClient.Lib.Tokens

/-! JSON texts (RFC 8259) as words of bytes, with the values that they mean. -/

namespace Json

open Utf8 Tokens
open String (utf8EncodeChar)

/-- The values of JSON texts. A number is kept as it is written, and the members of an object in
their order. -/
inductive Value where
  | null
  | bool (b : Bool)
  | number (literal : List UInt8)
  | string (text : List Char)
  | array (elements : List Value)
  | object (members : List (List Char × Value))

/-! ### Leaves -/

def isWhitespace (b : UInt8) : Bool := b = 0x20 || b = 0x09 || b = 0x0A || b = 0x0D

def IsSpace (l : List UInt8) : Prop := ∀ b ∈ l, isWhitespace b = true

def isDigit (b : UInt8) : Bool := 0x30 ≤ b.toNat && b.toNat ≤ 0x39

def AreDigits (l : List UInt8) : Prop := l ≠ [] ∧ ∀ b ∈ l, isDigit b = true

/-- An optional minus, an integer without leading zeros, an optional fraction and an optional
exponent. -/
inductive IsNumber : List UInt8 → Prop
  | mk (minus int frac exp : List UInt8) (hminus : minus = [] ∨ minus = [0x2D])
      (hint : AreDigits int ∧ (int.head? = some 0x30 → int.length = 1))
      (hfrac : frac = [] ∨ ∃ digits, frac = 0x2E :: digits ∧ AreDigits digits)
      (hexp : exp = [] ∨ ∃ e sign digits, exp = e :: sign ++ digits ∧ (e = 0x45 ∨ e = 0x65) ∧
        (sign = [] ∨ sign = [0x2B] ∨ sign = [0x2D]) ∧ AreDigits digits) :
      IsNumber (minus ++ int ++ frac ++ exp)

def hexValue (b : UInt8) : Option Nat :=
  if 0x30 ≤ b.toNat ∧ b.toNat ≤ 0x39 then some (b.toNat - 0x30)
  else if 0x41 ≤ b.toNat ∧ b.toNat ≤ 0x46 then some (b.toNat - 0x41 + 10)
  else if 0x61 ≤ b.toNat ∧ b.toNat ≤ 0x66 then some (b.toNat - 0x61 + 10)
  else none

/-- Four digits behind `\u`. -/
def IsUnit (l : List UInt8) (n : Nat) : Prop :=
  ∃ a b c d x y z w, l = [a, b, c, d] ∧ hexValue a = some x ∧ hexValue b = some y ∧
    hexValue c = some z ∧ hexValue d = some w ∧ n = ((x * 16 + y) * 16 + z) * 16 + w

def simpleEscapes : List (UInt8 × Char) :=
  [(0x22, '"'), (0x5C, '\\'), (0x2F, '/'), (0x62, '\x08'), (0x66, '\x0C'), (0x6E, '\n'),
    (0x72, '\r'), (0x74, '\t')]

/-- The characters of strings. -/
inductive CharToken : List UInt8 → Char → Prop
  | unescaped (c : Char) (hc : 0x20 ≤ c.toNat) (hquote : c ≠ '"') (hbackslash : c ≠ '\\') :
      CharToken (utf8EncodeChar c) c
  | escaped (b : UInt8) (c : Char) (h : (b, c) ∈ simpleEscapes) : CharToken [0x5C, b] c
  | unicode (digits : List UInt8) (c : Char) (h : IsUnit digits c.toNat) :
      CharToken (0x5C :: 0x75 :: digits) c
  | pair (high low : List UInt8) (n m : Nat) (c : Char) (hhigh : IsUnit high (0xD800 + n))
      (hlow : IsUnit low (0xDC00 + m)) (hn : n < 0x400) (hm : m < 0x400)
      (hc : c.toNat = 0x10000 + n * 0x400 + m) :
      CharToken (0x5C :: 0x75 :: high ++ 0x5C :: 0x75 :: low) c

def IsString (l : List UInt8) (text : List Char) : Prop :=
  ∃ body, l = 0x22 :: body ++ [0x22] ∧ Reads CharToken body text

/-! ### Texts -/

/-- The rules that have recursion in them, with what they mean. -/
inductive Phrase where
  | value (value : Value)
  | text (value : Value)
  | elements (elements : List Value)
  | member (key : List Char) (value : Value)
  | members (members : List (List Char × Value))

/-- A value has no whitespace around it, a text may have. Elements and members have commas between
them, and a member is a name, a colon and a text. -/
inductive Derives : List UInt8 → Phrase → Prop
  | null : Derives [0x6E, 0x75, 0x6C, 0x6C] (.value .null)
  | true : Derives [0x74, 0x72, 0x75, 0x65] (.value (.bool true))
  | false : Derives [0x66, 0x61, 0x6C, 0x73, 0x65] (.value (.bool false))
  | number (l : List UInt8) (h : IsNumber l) : Derives l (.value (.number l))
  | string (l : List UInt8) (text : List Char) (h : IsString l text) :
      Derives l (.value (.string text))
  | emptyArray (space : List UInt8) (h : IsSpace space) :
      Derives (0x5B :: space ++ [0x5D]) (.value (.array []))
  | array (l : List UInt8) (vs : List Value) (h : Derives l (.elements vs)) :
      Derives (0x5B :: l ++ [0x5D]) (.value (.array vs))
  | emptyObject (space : List UInt8) (h : IsSpace space) :
      Derives (0x7B :: space ++ [0x7D]) (.value (.object []))
  | object (l : List UInt8) (ms : List (List Char × Value)) (h : Derives l (.members ms)) :
      Derives (0x7B :: l ++ [0x7D]) (.value (.object ms))
  | text (before l after : List UInt8) (v : Value) (hbefore : IsSpace before)
      (h : Derives l (.value v)) (hafter : IsSpace after) :
      Derives (before ++ l ++ after) (.text v)
  | oneElement (l : List UInt8) (v : Value) (h : Derives l (.text v)) : Derives l (.elements [v])
  | elements (l rest : List UInt8) (v : Value) (vs : List Value) (h : Derives l (.text v))
      (hrest : Derives rest (.elements vs)) : Derives (l ++ 0x2C :: rest) (.elements (v :: vs))
  | member (before name after l : List UInt8) (key : List Char) (v : Value)
      (hbefore : IsSpace before) (hname : IsString name key) (hafter : IsSpace after)
      (h : Derives l (.text v)) :
      Derives (before ++ name ++ after ++ 0x3A :: l) (.member key v)
  | oneMember (l : List UInt8) (key : List Char) (v : Value) (h : Derives l (.member key v)) :
      Derives l (.members [(key, v)])
  | members (l rest : List UInt8) (key : List Char) (v : Value) (ms : List (List Char × Value))
      (h : Derives l (.member key v)) (hrest : Derives rest (.members ms)) :
      Derives (l ++ 0x2C :: rest) (.members ((key, v) :: ms))

/-- A JSON text and the value that it means. -/
def IsText (l : List UInt8) (v : Value) : Prop := Derives l (.text v)

/-- A JSON text with its value. -/
structure Text where
  bytes : List UInt8
  value : Value
  isText : IsText bytes value

/-! ### What every text has in common -/

/-- Where a reader of bytes is: behind an opening bracket or the start, behind a comma or a colon,
behind a value, or in a string. -/
inductive State where
  | opened
  | separated
  | ready
  | inside (pending : Nat)
  | escape
  | hex (pending : Nat)
  deriving DecidableEq

def State.isOutside : State → Bool
  | .opened | .separated | .ready => true
  | _ => false

/-- The reader stops at a comma or a bracket in the wrong place and at bytes that no string has. -/
def step : State → UInt8 → Option State
  | .inside 0, b =>
    if b = 0x22 then some .ready
    else if b = 0x5C then some .escape
    else if b.toNat < 0x20 then none
    else if b.toNat < 0x80 then some (.inside 0)
    else if b.toNat < 0xC0 then none
    else some (.inside (following b))
  | .inside (n + 1), b =>
    if 0x80 ≤ b.toNat ∧ b.toNat < 0xC0 then some (.inside n) else none
  | .escape, b =>
    if b = 0x75 then some (.hex 3)
    else if b ∈ simpleEscapes.map Prod.fst then some (.inside 0) else none
  | .hex 0, b => if (hexValue b).isSome then some (.inside 0) else none
  | .hex (n + 1), b => if (hexValue b).isSome then some (.hex n) else none
  | s, b =>
    if isWhitespace b then some s
    else if b = 0x22 then some (.inside 0)
    else if b = 0x5B ∨ b = 0x7B then some .opened
    else if b = 0x5D ∨ b = 0x7D then if s = .separated then none else some .ready
    else if b = 0x2C then if s = .ready then some .separated else none
    else if b = 0x3A then some .separated
    else some .ready

def scan (s : State) (l : List UInt8) : Option State := l.foldlM step s

variable {s s' : State} {l m : List UInt8} {b : UInt8} {c : Char}

theorem step_inside : step (.inside 0) b =
    if b = 0x22 then some .ready
    else if b = 0x5C then some .escape
    else if b.toNat < 0x20 then none
    else if b.toNat < 0x80 then some (.inside 0)
    else if b.toNat < 0xC0 then none
    else some (.inside (following b)) := rfl

theorem step_escape : step .escape b =
    if b = 0x75 then some (.hex 3)
    else if b ∈ simpleEscapes.map Prod.fst then some (.inside 0) else none := rfl

theorem step_hex (h : (hexValue b).isSome) (n : Nat) : step (.hex (n + 1)) b = some (.hex n) :=
  if_pos h

theorem step_outside (hs : s.isOutside = true) : step s b =
    if isWhitespace b then some s
    else if b = 0x22 then some (.inside 0)
    else if b = 0x5B ∨ b = 0x7B then some .opened
    else if b = 0x5D ∨ b = 0x7D then if s = .separated then none else some .ready
    else if b = 0x2C then if s = .ready then some .separated else none
    else if b = 0x3A then some .separated
    else some .ready := by
  cases s <;> first | rfl | cases hs

theorem scan_append_eq : scan s (l ++ m) = (scan s l).bind fun s' => scan s' m :=
  List.foldlM_append

theorem scan_append (h : scan s l = some s') : scan s (l ++ m) = scan s' m := by
  rw [scan_append_eq, h, Option.bind_some]

theorem scan_append_none (h : scan s l = none) : scan s (l ++ m) = none := by
  rw [scan_append_eq, h, Option.bind_none]

theorem scan_cons_eq : scan s (b :: l) = (step s b).bind fun s' => scan s' l := rfl

theorem scan_cons (h : step s b = some s') : scan s (b :: l) = scan s' l := by
  rw [scan_cons_eq, h, Option.bind_some]

theorem scan_inside {l : List UInt8} {n : Nat} (h : Continues l n) :
    scan (.inside n) l = some (.inside 0) := by
  induction l generalizing n with
  | nil =>
    obtain rfl : 0 = n := h.1
    rfl
  | cons b l ih =>
    obtain rfl : l.length + 1 = n := h.1
    have hb := h.2 b List.mem_cons_self
    have hstep : step (.inside (l.length + 1)) b = some (.inside l.length) := if_pos hb
    rw [scan_cons hstep]
    exact ih ⟨rfl, fun b hb => h.2 b (List.mem_cons_of_mem _ hb)⟩

/-- Characters that are not in ASCII, and those of them that mean nothing else in a string. -/
theorem scan_encodeChar (hc : 0x20 ≤ c.toNat) (hquote : c ≠ '"') (hbackslash : c ≠ '\\') :
    scan (.inside 0) (utf8EncodeChar c) = some (.inside 0) := by
  by_cases hascii : c.toNat < 128
  · have hcode : (UInt8.ofNat c.toNat).toNat = c.toNat := toNat_ofNat_of_lt (by omega)
    have hne : ∀ (d : Char) (b : UInt8), b.toNat = d.toNat → c ≠ d → UInt8.ofNat c.toNat ≠ b := by
      intro d b hb hne heq
      rw [heq, hb] at hcode
      exact hne (Char.toNat_inj.mp hcode.symm)
    have hstep : step (.inside 0) (.ofNat c.toNat) = some (.inside 0) := by
      rw [step_inside, if_neg (hne '"' _ (by decide) hquote), if_neg (hne '\\' _ (by decide) hbackslash),
        hcode, if_neg (by omega), if_pos hascii]
    rw [encodeChar_ascii hascii, scan_cons hstep]
    rfl
  · obtain ⟨first, rest, heq, hfirst, hrest⟩ := encodeChar_of_not_ascii (Nat.le_of_not_lt hascii)
    have hstep : step (.inside 0) first = some (.inside (following first)) := by
      have hne : ∀ b : UInt8, b.toNat < 0x80 → first ≠ b := by
        intro b hb heq
        rw [heq] at hfirst
        omega
      rw [step_inside, if_neg (hne _ (by decide)), if_neg (hne _ (by decide)), if_neg (by omega),
        if_neg (by omega), if_neg (by omega)]
    rw [heq, scan_cons hstep, scan_inside hrest]

theorem scan_unit {n : Nat} (h : IsUnit l n) : scan (.hex 3) l = some (.inside 0) := by
  obtain ⟨a, b, c, d, x, y, z, w, rfl, ha, hb, hc, hd, -⟩ := h
  rw [scan_cons (step_hex (by rw [ha]; rfl) 2), scan_cons (step_hex (by rw [hb]; rfl) 1),
    scan_cons (step_hex (by rw [hc]; rfl) 0)]
  have hlast : step (.hex 0) d = some (.inside 0) := if_pos (by rw [hd]; rfl)
  rw [scan_cons hlast]
  rfl

theorem scan_token (h : CharToken l c) : scan (.inside 0) l = some (.inside 0) := by
  cases h with
  | unescaped c hc hquote hbackslash => exact scan_encodeChar hc hquote hbackslash
  | escaped b c h =>
    have hmem : b ∈ simpleEscapes.map Prod.fst := List.mem_map_of_mem (f := Prod.fst) h
    have hne : b ≠ 0x75 := by
      intro heq
      rw [heq] at hmem
      revert hmem
      decide
    have hstep : step .escape b = some (.inside 0) := by
      rw [step_escape, if_neg hne, if_pos hmem]
    have hfirst : step (.inside 0) 0x5C = some .escape := rfl
    rw [scan_cons hfirst, scan_cons hstep]
    rfl
  | unicode digits c h =>
    have hfirst : scan (.inside 0) [0x5C, 0x75] = some (.hex 3) := rfl
    rw [← scan_unit h, ← scan_append hfirst]
    rfl
  | pair high low n m c hhigh hlow =>
    have hfirst : scan (.inside 0) [0x5C, 0x75] = some (.hex 3) := rfl
    have hpair : scan (.inside 0) (0x5C :: 0x75 :: high) = some (.inside 0) := by
      rw [← scan_unit hhigh, ← scan_append hfirst]
      rfl
    rw [scan_append hpair, ← scan_unit hlow, ← scan_append hfirst]
    rfl

theorem scan_reads {text : List Char} (h : Reads CharToken l text) :
    scan (.inside 0) l = some (.inside 0) := by
  induction h with
  | nil => rfl
  | cons t l c text ht _ ih => rw [scan_append (scan_token ht), ih]

theorem scan_string {text : List Char} (h : IsString l text) (hs : s.isOutside = true) :
    scan s l = some .ready := by
  obtain ⟨body, rfl, hbody⟩ := h
  have hfirst : step s 0x22 = some (.inside 0) := by cases s <;> first | rfl | cases hs
  rw [List.cons_append, scan_cons hfirst, scan_append (scan_reads hbody)]
  rfl

theorem scan_space (h : IsSpace l) (hs : s.isOutside = true) : scan s l = some s := by
  induction l with
  | nil => rfl
  | cons b l ih =>
    obtain ⟨hb, hl⟩ := List.forall_mem_cons.mp h
    have hstep : step s b = some s := by cases s <;> first | exact if_pos hb | cases hs
    rw [scan_cons hstep, ih hl]

/-- A byte of numbers, or of the literals. -/
def isAtom (b : UInt8) : Bool :=
  !isWhitespace b && b ∉ [(0x22 : UInt8), 0x5B, 0x7B, 0x5D, 0x7D, 0x2C, 0x3A]

theorem scan_atoms (h : ∀ b ∈ l, isAtom b = true) (hne : l ≠ []) (hs : s.isOutside = true) :
    scan s l = some .ready := by
  induction l generalizing s with
  | nil => exact absurd rfl hne
  | cons b l ih =>
    obtain ⟨hb, hl⟩ := List.forall_mem_cons.mp h
    have hstep : step s b = some .ready := by
      simp [isAtom] at hb
      simp [step_outside hs, hb]
    rw [scan_cons hstep]
    by_cases hnil : l = []
    · rw [hnil]
      rfl
    · exact ih hl hnil rfl

theorem isAtom_of_isDigit (h : isDigit b = true) : isAtom b = true := by
  have hall : ∀ n < 10, isAtom (.ofNat (0x30 + n)) = true := by decide
  rw [isDigit, Bool.and_eq_true, decide_eq_true_eq, decide_eq_true_eq] at h
  have hb := hall (b.toNat - 0x30) (by omega)
  rw [Nat.add_sub_of_le h.1, UInt8.ofNat_toNat] at hb
  exact hb

theorem IsNumber.isAtom (h : IsNumber l) : (∀ b ∈ l, isAtom b = true) ∧ l ≠ [] := by
  have hdigits : ∀ {digits : List UInt8}, AreDigits digits → ∀ b ∈ digits, Json.isAtom b = true :=
    fun h b hb => isAtom_of_isDigit (h.2 b hb)
  obtain ⟨minus, int, frac, exp, hminus, hint, hfrac, hexp⟩ := h
  constructor
  · simp only [List.forall_mem_append]
    refine ⟨⟨⟨?_, hdigits hint.1⟩, ?_⟩, ?_⟩
    · rcases hminus with rfl | rfl
      · simp
      · decide +kernel
    · rcases hfrac with rfl | ⟨digits, rfl, h⟩
      · simp
      · exact List.forall_mem_cons.mpr ⟨by decide, hdigits h⟩
    · rcases hexp with rfl | ⟨e, sign, digits, rfl, he, hsign, h⟩
      · simp
      · rw [List.cons_append, List.forall_mem_cons, List.forall_mem_append]
        refine ⟨?_, ?_, hdigits h⟩
        · rcases he with rfl | rfl <;> decide
        · rcases hsign with rfl | rfl | rfl
          · simp
          · decide +kernel
          · decide +kernel
  · intro hnil
    simp only [List.append_eq_nil_iff] at hnil
    exact hint.1.1 hnil.1.1.2

theorem scan_derives {phrase : Phrase} (h : Derives l phrase) (hs : s.isOutside = true) :
    scan s l = some .ready := by
  have hbracket : ∀ {s : State} {b : UInt8}, s.isOutside = true → b = 0x5B ∨ b = 0x7B →
      step s b = some .opened := by
    intro s b hs hb
    rcases hb with rfl | rfl
    · cases s <;> first | rfl | cases hs
    · cases s <;> first | rfl | cases hs
  have hcomma : step .ready 0x2C = some .separated := rfl
  have hcolon : step .ready 0x3A = some .separated := rfl
  induction h generalizing s with
  | null => exact scan_atoms (by decide +kernel) (by decide) hs
  | true => exact scan_atoms (by decide +kernel) (by decide) hs
  | false => exact scan_atoms (by decide +kernel) (by decide) hs
  | number l h => exact scan_atoms h.isAtom.1 h.isAtom.2 hs
  | string l text h => exact scan_string h hs
  | emptyArray space h =>
    rw [List.cons_append, scan_cons (hbracket hs (.inl rfl)), scan_append (scan_space h rfl)]
    rfl
  | array l vs h ih =>
    rw [List.cons_append, scan_cons (hbracket hs (.inl rfl)), scan_append (ih rfl)]
    rfl
  | emptyObject space h =>
    rw [List.cons_append, scan_cons (hbracket hs (.inr rfl)), scan_append (scan_space h rfl)]
    rfl
  | object l ms h ih =>
    rw [List.cons_append, scan_cons (hbracket hs (.inr rfl)), scan_append (ih rfl)]
    rfl
  | text before l after v hbefore h hafter ih =>
    rw [List.append_assoc, scan_append (scan_space hbefore hs), scan_append (ih hs),
      scan_space hafter rfl]
  | oneElement l v h ih => exact ih hs
  | elements l rest v vs h hrest ih ihrest =>
    rw [scan_append (ih hs), scan_cons hcomma, ihrest rfl]
  | member before name after l key v hbefore hname hafter h ih =>
    rw [List.append_assoc, List.append_assoc, scan_append (scan_space hbefore hs),
      scan_append (scan_string hname hs), scan_append (scan_space hafter rfl), scan_cons hcolon,
      ih rfl]
  | oneMember l key v h ih => exact ih hs
  | members l rest key v ms h hrest ih ihrest =>
    rw [scan_append (ih hs), scan_cons hcomma, ihrest rfl]

theorem IsText.scan {v : Value} (h : IsText l v) (hs : s.isOutside = true) :
    Json.scan s l = some .ready :=
  scan_derives h hs

theorem Text.ne_nil (text : Text) : text.bytes ≠ [] := by
  intro hnil
  have h := text.isText.scan (s := .opened) rfl
  rw [hnil] at h
  cases h

end Json
