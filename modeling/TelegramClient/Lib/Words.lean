import TelegramClient.Lib.LittleEndian

/-! Words of 32 bits as their bytes, the lowest one first. -/

namespace Words

def bytesOf (words : List UInt32) : List UInt8 := words.flatMap fun word => leBytes 4 word.toNat

/-- The words of the bytes; what is left of the last word is dropped. -/
def wordsOf : List UInt8 → List UInt32
  | a :: b :: c :: d :: bytes => UInt32.ofNat (leValue [a, b, c, d]) :: wordsOf bytes
  | _ => []

variable {words words' : List UInt32} {bytes : List UInt8} {n : Nat}

@[simp]
theorem bytesOf_nil : bytesOf [] = [] := rfl

@[simp]
theorem bytesOf_cons (word : UInt32) (words : List UInt32) :
    bytesOf (word :: words) = leBytes 4 word.toNat ++ bytesOf words := List.flatMap_cons

@[simp]
theorem bytesOf_append (words words' : List UInt32) :
    bytesOf (words ++ words') = bytesOf words ++ bytesOf words' := List.flatMap_append

@[simp]
theorem length_bytesOf (words : List UInt32) : (bytesOf words).length = 4 * words.length := by
  induction words with
  | nil => rfl
  | cons word words ih =>
    rw [bytesOf_cons, List.length_append, length_leBytes, ih, List.length_cons]
    omega

theorem take_bytesOf (words : List UInt32) (n : Nat) :
    (bytesOf words).take (4 * n) = bytesOf (words.take n) := by
  by_cases hn : n ≤ words.length
  · have hlength : (bytesOf (words.take n)).length = 4 * n := by
      rw [length_bytesOf, List.length_take_of_le hn]
    have happend := bytesOf_append (words.take n) (words.drop n)
    rw [List.take_append_drop] at happend
    rw [happend, List.take_left' hlength]
  · rw [List.take_of_length_le (by rw [length_bytesOf]; omega), List.take_of_length_le (by omega)]

theorem leBytes_ofNat (h : bytes.length = 4) :
    leBytes 4 (UInt32.ofNat (leValue bytes)).toNat = bytes := by
  have hlt := leValue_lt bytes
  rw [h] at hlt
  have hback := leBytes_leValue bytes
  rw [h] at hback
  rw [UInt32.toNat_ofNat_of_lt' (by simpa using hlt), hback]

theorem bytesOf_wordsOf {bytes : List UInt8} (h : bytes.length % 4 = 0) :
    bytesOf (wordsOf bytes) = bytes := by
  induction bytes using wordsOf.induct with
  | case1 a b c d bytes ih =>
    have hrest : bytes.length % 4 = 0 := by
      simp only [List.length_cons] at h
      omega
    rw [wordsOf, bytesOf_cons, ih hrest, leBytes_ofNat rfl]
    rfl
  | case2 bytes hshort =>
    cases bytes with
    | nil => rfl
    | cons a bytes =>
      match bytes, h, hshort with
      | [], h, _ => simp at h
      | [_], h, _ => simp at h
      | [_, _], h, _ => simp at h
      | b :: c :: d :: bytes, _, hshort => exact absurd rfl (hshort a b c d bytes)

theorem length_wordsOf (h : bytes.length % 4 = 0) : 4 * (wordsOf bytes).length = bytes.length := by
  rw [← length_bytesOf, bytesOf_wordsOf h]

end Words
