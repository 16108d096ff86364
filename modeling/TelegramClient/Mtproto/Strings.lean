import TelegramClient.Lib.Words
import TelegramClient.Mtproto.Container

/-! Strings and vectors as words of a message (`mtproto/core_types.cpp`, `core_types.h`). What is
read is taken from the front of the words that are left. -/

namespace TelegramClient.Mtproto

open Words

def mtpc_string : UInt32 := 0xb5286e24

inductive ReadError where
  | insufficient
  | unexpected (typeId : UInt32) (type : String)
  deriving DecidableEq

def ReadError.what : ReadError → String
  | .insufficient => "MTP Insufficient bytes in input buffer"
  | .unexpected typeId type =>
    "MTP Unexpected type id #" ++ String.ofList (Nat.toDigits 16 typeId.toNat) ++ " read in " ++
      type

namespace MTPstring

def innerLength (v : List UInt8) : Nat :=
  let l := if v.length < 254 then v.length + 1 else v.length + 4
  let d := l &&& 0x03
  if d ≠ 0 then l + (4 - d) else l

/-- The bytes are behind those of their length. -/
def readBytes (words : List UInt32) (header l : Nat) :
    Except ReadError (List UInt8 × List UInt32) :=
  let count := ((l + header) >>> 2) + if (l + header) &&& 0x03 ≠ 0 then 1 else 0
  if words.length < count then .error .insufficient
  else .ok (((bytesOf words).drop header).take l, words.drop count)

def read (cons : UInt32) (words : List UInt32) : Except ReadError (List UInt8 × List UInt32) :=
  match bytesOf words with
  | a :: b :: c :: d :: _ =>
    if cons ≠ mtpc_string then .error (.unexpected cons "MTPstring")
    else if a = 254 then readBytes words 4 (b.toNat + (c.toNat <<< 8) + (d.toNat <<< 16))
    else readBytes words 1 a.toNat
  | _ => .error .insufficient

def header (l : Nat) : List UInt8 :=
  if l < 254 then [UInt8.ofNat l]
  else [254, UInt8.ofNat (l &&& 0xFF), UInt8.ofNat ((l >>> 8) &&& 0xFF),
    UInt8.ofNat ((l >>> 16) &&& 0xFF)]

/-- The words that are added to the buffer. Those that it grows by are zero at first. -/
def write (v : List UInt8) : List UInt32 :=
  let l := v.length
  let s := l + if l < 254 then 1 else 4
  let s := (if s &&& 0x03 ≠ 0 then s + 4 else s) >>> 2
  let bytes := header l ++ v
  wordsOf (bytes ++ List.replicate (4 * s - bytes.length) 0)

variable {words rest : List UInt32} {v bytes padding : List UInt8} {cons : UInt32} {a b c d : UInt8}
  {h l n : Nat}

theorem and_three (n : Nat) : n &&& 0x03 = n % 4 := Nat.and_two_pow_sub_one_eq_mod n 2

theorem length_header (l : Nat) : (header l).length = if l < 254 then 1 else 4 := by
  rw [header]
  split <;> rfl

theorem wordsFor_read (n : Nat) : ((n >>> 2) + if n &&& 0x03 ≠ 0 then 1 else 0) = (n + 3) / 4 := by
  rw [and_three, Nat.shiftRight_eq_div_pow]
  split <;> omega

theorem wordsFor_write (n : Nat) : (if n &&& 0x03 ≠ 0 then n + 4 else n) >>> 2 = (n + 3) / 4 := by
  rw [and_three, Nat.shiftRight_eq_div_pow]
  split <;> omega

/-- What is written, with less than a word of zeros behind it. -/
theorem bytesOf_write (v : List UInt8) : ∃ padding,
    bytesOf (write v) = header v.length ++ v ++ padding ∧
      (write v).length = (v.length + (header v.length).length + 3) / 4 := by
  have hs : ∀ l : Nat, (if l < 254 then 1 else 4) = (header l).length :=
    fun l => (length_header l).symm
  have hlength : (header v.length ++ v).length = v.length + (header v.length).length := by
    rw [List.length_append, Nat.add_comm]
  unfold write
  simp only [hs, wordsFor_write, hlength]
  generalize hn : v.length + (header v.length).length = n at *
  have hbytes : (header v.length ++ v ++
      List.replicate (4 * ((n + 3) / 4) - n) 0).length = 4 * ((n + 3) / 4) := by
    rw [List.length_append, hlength, List.length_replicate]
    omega
  refine ⟨List.replicate (4 * ((n + 3) / 4) - n) 0, bytesOf_wordsOf (by omega), ?_⟩
  have hwords := @length_wordsOf (header v.length ++ v ++
    List.replicate (4 * ((n + 3) / 4) - n) 0) (by omega)
  omega

theorem length_write (v : List UInt8) : 4 * (write v).length = innerLength v := by
  obtain ⟨padding, -, hlength⟩ := bytesOf_write v
  rw [hlength, length_header, innerLength]
  simp only [and_three]
  split <;> split <;> omega

theorem readBytes_append (hwords : bytesOf words = bytes ++ v ++ padding)
    (hlength : words.length = (v.length + bytes.length + 3) / 4) (rest : List UInt32) :
    readBytes (words ++ rest) bytes.length v.length = .ok (v, rest) := by
  rw [readBytes]
  simp only [wordsFor_read]
  rw [← hlength, if_neg (by simp), bytesOf_append, hwords]
  simp

theorem exists_four (hwords : words ≠ []) :
    ∃ a b c d bytes, bytesOf words = a :: b :: c :: d :: bytes := by
  obtain ⟨word, words, rfl⟩ := List.exists_cons_of_ne_nil hwords
  exact ⟨_, _, _, _, _, rfl⟩

theorem read_eq (hbytes : bytesOf words = a :: b :: c :: d :: bytes) :
    read mtpc_string words =
      if a = 254 then readBytes words 4 (b.toNat + (c.toNat <<< 8) + (d.toNat <<< 16))
      else readBytes words 1 a.toNat := by
  rw [read, hbytes]
  exact if_neg (fun h => h rfl)

theorem three_bytes (hl : l < 2 ^ 24) :
    (UInt8.ofNat (l &&& 0xFF)).toNat + ((UInt8.ofNat ((l >>> 8) &&& 0xFF)).toNat <<< 8) +
      ((UInt8.ofNat ((l >>> 16) &&& 0xFF)).toNat <<< 16) = l := by
  have hand : ∀ n : Nat, n &&& 0xFF = n % 256 := fun n => Nat.and_two_pow_sub_one_eq_mod n 8
  simp only [UInt8.toNat_ofNat', hand, Nat.shiftRight_eq_div_pow, Nat.shiftLeft_eq]
  omega

theorem read_write (hv : v.length < 2 ^ 24) (rest : List UInt32) :
    read mtpc_string (write v ++ rest) = .ok (v, rest) := by
  obtain ⟨padding, hbytes, hlength⟩ := bytesOf_write v
  have hread := readBytes_append hbytes hlength rest
  have hall : bytesOf (write v ++ rest) = header v.length ++ (v ++ padding ++ bytesOf rest) := by
    rw [bytesOf_append, hbytes, List.append_assoc, List.append_assoc, List.append_assoc]
  by_cases hshort : v.length < 254
  · have hheader : header v.length = [UInt8.ofNat v.length] := if_pos hshort
    have hvalue : (UInt8.ofNat v.length).toNat = v.length := by
      rw [UInt8.toNat_ofNat']
      omega
    have hne : UInt8.ofNat v.length ≠ 254 := by
      intro heq
      rw [heq] at hvalue
      exact absurd hvalue.symm (Nat.ne_of_lt hshort)
    have hwords : write v ++ rest ≠ [] := by
      intro hnil
      rw [hnil, hheader] at hall
      cases hall
    obtain ⟨a, b, c, d, bytes, hfour⟩ := exists_four hwords
    have ha : a = UInt8.ofNat v.length := by
      rw [hfour, hheader] at hall
      exact (List.cons.inj hall).1
    rw [read_eq hfour, ha, if_neg hne, hvalue]
    rw [hheader] at hread
    exact hread
  · have hheader : header v.length = [254, UInt8.ofNat (v.length &&& 0xFF),
        UInt8.ofNat ((v.length >>> 8) &&& 0xFF), UInt8.ofNat ((v.length >>> 16) &&& 0xFF)] :=
      if_neg hshort
    rw [hheader] at hall hread
    rw [read_eq hall, if_pos rfl, three_bytes hv]
    exact hread

theorem readBytes_consumed (hread : readBytes words h l = .ok (v, rest)) :
    ∃ consumed header padding, words = consumed ++ rest ∧
      bytesOf consumed = header ++ v ++ padding ∧ header.length = h ∧ v.length = l ∧
      padding.length < 4 := by
  rw [readBytes] at hread
  simp only [wordsFor_read] at hread
  split at hread
  · cases hread
  · rename_i hcount
    obtain ⟨rfl, rfl⟩ := Prod.mk.inj (Except.ok.inj hread)
    generalize hn : (l + h + 3) / 4 = n at hcount
    have hconsumed := take_bytesOf words n
    have hlength := length_bytesOf words
    refine ⟨words.take n, (bytesOf words).take h, ((bytesOf words).take (4 * n)).drop (h + l),
      (List.take_append_drop n words).symm, ?_, ?_, ?_, ?_⟩
    · rw [← hconsumed]
      conv_lhs => rw [← List.take_append_drop (h + l) ((bytesOf words).take (4 * n))]
      rw [List.take_take, Nat.min_eq_left (by omega), List.take_add]
    · rw [List.length_take]
      omega
    · rw [List.length_take, List.length_drop]
      omega
    · rw [List.length_drop, List.length_take]
      omega

/-- The bytes lie in the words that are taken from the front, and need all of them. -/
theorem read_consumed (hread : read cons words = .ok (v, rest)) :
    ∃ consumed header padding, words = consumed ++ rest ∧
      bytesOf consumed = header ++ v ++ padding ∧ (header.length = 1 ∨ header.length = 4) ∧
      padding.length < 4 := by
  unfold read at hread
  split at hread
  · split at hread
    · cases hread
    · split at hread
      · obtain ⟨consumed, header, padding, hwords, hbytes, hheader, -, hpadding⟩ :=
          readBytes_consumed hread
        exact ⟨consumed, header, padding, hwords, hbytes, .inr hheader, hpadding⟩
      · obtain ⟨consumed, header, padding, hwords, hbytes, hheader, -, hpadding⟩ :=
          readBytes_consumed hread
        exact ⟨consumed, header, padding, hwords, hbytes, .inl hheader, hpadding⟩
  · cases hread

end MTPstring

namespace MTPvector

variable {α : Type}

def innerLength (itemLength : α → Nat) (v : List α) : Nat :=
  v.foldl (fun result item => (result + itemLength item) % 2 ^ 32) 4

/-- A size is an `int`, and no vector comes from one below zero. -/
def sizeOf (count : UInt32) : Nat := if count.toNat < 2 ^ 31 then count.toNat else 0

def readItems (readItem : List UInt32 → Except ReadError (α × List UInt32)) :
    Nat → List UInt32 → Except ReadError (List α × List UInt32)
  | 0, words => .ok ([], words)
  | count + 1, words => do
    let (item, words) ← readItem words
    let (items, words) ← readItems readItem count words
    pure (item :: items, words)

def read (readItem : List UInt32 → Except ReadError (α × List UInt32)) (cons : UInt32)
    (words : List UInt32) : Except ReadError (List α × List UInt32) :=
  match words with
  | [] => .error .insufficient
  | count :: words =>
    if cons ≠ mtpc_vector then .error (.unexpected cons "MTPvector")
    else readItems readItem (sizeOf count) words

def write (writeItem : α → List UInt32) (v : List α) : List UInt32 :=
  UInt32.ofNat v.length :: v.flatMap writeItem

variable {readItem : List UInt32 → Except ReadError (α × List UInt32)} {itemLength : α → Nat}
  {writeItem : α → List UInt32} {v : List α} {words rest : List UInt32} {cons : UInt32} {n : Nat}

theorem readItems_flatMap (hitems : ∀ item ∈ v, ∀ rest, readItem (writeItem item ++ rest) =
    .ok (item, rest)) (rest : List UInt32) :
    readItems readItem v.length (v.flatMap writeItem ++ rest) = .ok (v, rest) := by
  induction v with
  | nil => rfl
  | cons item v ih =>
    have hitem := hitems item List.mem_cons_self (v.flatMap writeItem ++ rest)
    have hrest := ih fun item' hmem => hitems item' (List.mem_cons_of_mem item hmem)
    rw [List.flatMap_cons, List.append_assoc, List.length_cons, readItems, hitem]
    change (do
      let (items, words) ← readItems readItem v.length (v.flatMap writeItem ++ rest)
      pure (item :: items, words)) = _
    rw [hrest]
    rfl

theorem readItems_suffix (hitem : ∀ words item rest, readItem words = .ok (item, rest) →
    rest <:+ words) (hread : readItems readItem n words = .ok (v, rest)) : rest <:+ words := by
  induction n generalizing words v with
  | zero =>
    obtain ⟨-, rfl⟩ := Prod.mk.inj (Except.ok.inj hread)
    exact List.suffix_rfl
  | succ n ih =>
    rw [readItems] at hread
    cases hfirst : readItem words with
    | error error =>
      rw [hfirst] at hread
      cases hread
    | ok first =>
      obtain ⟨item, words'⟩ := first
      rw [hfirst] at hread
      change (do
        let (items, words) ← readItems readItem n words'
        pure (item :: items, words)) = _ at hread
      cases hothers : readItems readItem n words' with
      | error error =>
        rw [hothers] at hread
        cases hread
      | ok others =>
        rw [hothers] at hread
        obtain ⟨-, rfl⟩ := Prod.mk.inj (Except.ok.inj hread)
        exact (ih hothers).trans (hitem _ _ _ hfirst)

theorem foldl_length (v : List α) (start : Nat) (hstart : start < 2 ^ 32) :
    v.foldl (fun result item => (result + itemLength item) % 2 ^ 32) start =
      (start + (v.map itemLength).sum) % 2 ^ 32 := by
  induction v generalizing start with
  | nil => exact (Nat.mod_eq_of_lt hstart).symm
  | cons item v ih =>
    rw [List.foldl_cons, ih _ (Nat.mod_lt _ (by decide)), List.map_cons, List.sum_cons,
      Nat.mod_add_mod, Nat.add_assoc]

theorem length_write_mod (hitems : ∀ item ∈ v, 4 * (writeItem item).length = itemLength item) :
    4 * (write writeItem v).length % 2 ^ 32 = innerLength itemLength v := by
  have hsum : 4 * (v.flatMap writeItem).length = (v.map itemLength).sum := by
    induction v with
    | nil => rfl
    | cons item v ih =>
      have hitem := hitems item List.mem_cons_self
      have hrest := ih fun item' hmem => hitems item' (List.mem_cons_of_mem item hmem)
      rw [List.flatMap_cons, List.length_append, List.map_cons, List.sum_cons]
      omega
  rw [innerLength, foldl_length v 4 (by decide), ← hsum, write, List.length_cons]
  congr 1
  omega

theorem length_write (hitems : ∀ item ∈ v, 4 * (writeItem item).length = itemLength item)
    (hsize : 4 * (write writeItem v).length < 2 ^ 32) :
    4 * (write writeItem v).length = innerLength itemLength v := by
  rw [← length_write_mod hitems, Nat.mod_eq_of_lt hsize]

theorem length_le_flatMap (hitems : ∀ item ∈ v, writeItem item ≠ []) :
    v.length ≤ (v.flatMap writeItem).length := by
  induction v with
  | nil => exact Nat.zero_le _
  | cons item v ih =>
    have hitem := List.length_pos_iff.mpr (hitems item List.mem_cons_self)
    have hrest := ih fun item' hmem => hitems item' (List.mem_cons_of_mem item hmem)
    rw [List.flatMap_cons, List.length_append, List.length_cons]
    omega

theorem read_write (hitems : ∀ item ∈ v, ∀ rest, readItem (writeItem item ++ rest) =
    .ok (item, rest)) (hlength : v.length < 2 ^ 31) (rest : List UInt32) :
    read readItem mtpc_vector (write writeItem v ++ rest) = .ok (v, rest) := by
  have hsize : sizeOf (UInt32.ofNat v.length) = v.length := by
    rw [sizeOf, UInt32.toNat_ofNat_of_lt' (Nat.lt_trans hlength (by decide)), if_pos hlength]
  rw [write, List.cons_append, read, if_neg (fun h => h rfl), hsize]
  exact readItems_flatMap hitems rest

theorem read_suffix (hitem : ∀ words item rest, readItem words = .ok (item, rest) →
    rest <:+ words) (hread : read readItem cons words = .ok (v, rest)) : rest <:+ words := by
  cases words with
  | nil => cases hread
  | cons count words =>
    rw [read] at hread
    split at hread
    · cases hread
    · exact (readItems_suffix hitem hread).trans (List.suffix_cons count words)

end MTPvector

/-- A buffer holds fewer than 2 ^ 32 bytes. -/
theorem strings_readBack {v : List UInt8} {items : List (List UInt8)} (hv : v.length < 2 ^ 24)
    (hitems : ∀ item ∈ items, item.length < 2 ^ 24)
    (hbuffer : 4 * (MTPvector.write MTPstring.write items).length < 2 ^ 32)
    (rest words : List UInt32) (cons : UInt32) :
    (MTPstring.read mtpc_string (MTPstring.write v ++ rest) = .ok (v, rest) ∧
      4 * (MTPstring.write v).length = MTPstring.innerLength v) ∧
    (MTPvector.read (MTPstring.read mtpc_string) mtpc_vector
        (MTPvector.write MTPstring.write items ++ rest) = .ok (items, rest) ∧
      4 * (MTPvector.write MTPstring.write items).length =
        MTPvector.innerLength MTPstring.innerLength items) ∧
    (∀ bytes left, MTPstring.read cons words = .ok (bytes, left) →
      ∃ consumed header padding, words = consumed ++ left ∧
        bytesOf consumed = header ++ bytes ++ padding ∧ (header.length = 1 ∨ header.length = 4) ∧
        padding.length < 4) ∧
    ∀ values left, MTPvector.read (MTPstring.read mtpc_string) cons words = .ok (values, left) →
      left <:+ words := by
  have hsuffix : ∀ words bytes left, MTPstring.read mtpc_string words = .ok (bytes, left) →
      left <:+ words := by
    intro words bytes left hread
    obtain ⟨consumed, -, -, hwords, -⟩ := MTPstring.read_consumed hread
    exact ⟨consumed, hwords.symm⟩
  have hitem : ∀ item ∈ items, ∀ rest, MTPstring.read mtpc_string (MTPstring.write item ++ rest) =
      .ok (item, rest) := fun item hmem => MTPstring.read_write (hitems item hmem)
  have hne : ∀ item ∈ items, MTPstring.write item ≠ [] := by
    intro item hmem hnil
    have hread := hitem item hmem []
    rw [hnil] at hread
    cases hread
  have hlength := MTPvector.length_le_flatMap hne
  have hcount : items.length < 2 ^ 31 := by
    rw [MTPvector.write, List.length_cons] at hbuffer
    omega
  refine ⟨⟨MTPstring.read_write hv rest, MTPstring.length_write v⟩,
    ⟨MTPvector.read_write hitem hcount rest, ?_⟩, fun _ _ => MTPstring.read_consumed,
    fun _ _ => MTPvector.read_suffix hsuffix⟩
  exact MTPvector.length_write (fun item _ => MTPstring.length_write item) hbuffer


theorem strings_readBack_two :
    let items : List (List UInt8) := [[1, 2], []]
    let rest : List UInt32 := [7]
    (MTPstring.read mtpc_string (MTPstring.write [5] ++ rest) = .ok ([5], rest) ∧
      4 * (MTPstring.write [5]).length = MTPstring.innerLength [5]) ∧
    (MTPvector.read (MTPstring.read mtpc_string) mtpc_vector
        (MTPvector.write MTPstring.write items ++ rest) = .ok (items, rest) ∧
      4 * (MTPvector.write MTPstring.write items).length =
        MTPvector.innerLength MTPstring.innerLength items) ∧
    (∀ bytes left, MTPstring.read mtpc_string [7] = .ok (bytes, left) →
      ∃ consumed header padding, [7] = consumed ++ left ∧
        bytesOf consumed = header ++ bytes ++ padding ∧ (header.length = 1 ∨ header.length = 4) ∧
        padding.length < 4) ∧
    ∀ values left, MTPvector.read (MTPstring.read mtpc_string) mtpc_string [7] =
      .ok (values, left) → left <:+ [7] :=
  strings_readBack (by decide) (by decide) (by decide) [7] [7] mtpc_string

end TelegramClient.Mtproto
