import Mathlib

/-! A stream absorbed in blocks of one size: the state after the whole blocks, and the
rest that does not fill a block yet. -/

namespace TelegramClient.Blocks

variable {α σ : Type*}

/-- Absorbs a given number of blocks from the front. -/
def absorbN (f : σ → List α → σ) (size : Nat) : Nat → σ → List α → σ
  | 0, s, _ => s
  | n + 1, s, xs => absorbN f size n (f s (xs.take size)) (xs.drop size)

def absorb (f : σ → List α → σ) (size : Nat) (s : σ) (xs : List α) : σ :=
  absorbN f size (xs.length / size) s xs

def rest (size : Nat) (xs : List α) : List α := xs.drop (xs.length / size * size)

variable {f : σ → List α → σ} {size : Nat} {s : σ} {xs ys block : List α}

theorem length_rest : (rest size xs).length = xs.length % size := by
  rw [rest, List.length_drop, Nat.mod_eq_sub_div_mul]

theorem rest_of_lt (h : xs.length < size) : rest size xs = xs := by
  rw [rest, Nat.div_eq_of_lt h, Nat.zero_mul, List.drop_zero]

theorem absorb_of_lt (h : xs.length < size) : absorb f size s xs = s := by
  rw [absorb, Nat.div_eq_of_lt h, absorbN]

theorem length_block_append_div (hs : 0 < size) (hb : block.length = size) :
    (block ++ xs).length / size = xs.length / size + 1 := by
  rw [List.length_append, hb, Nat.add_div_left _ hs]

theorem rest_block (hs : 0 < size) (hb : block.length = size) :
    rest size (block ++ xs) = rest size xs := by
  rw [rest, length_block_append_div hs hb, Nat.add_mul, Nat.one_mul, Nat.add_comm, ← hb,
    List.drop_length_add_append, rest, hb]

theorem absorb_block (hs : 0 < size) (hb : block.length = size) :
    absorb f size s (block ++ xs) = absorb f size (f s block) xs := by
  rw [absorb, length_block_append_div hs hb, absorbN, ← hb, List.take_left, List.drop_left,
    hb, absorb]

theorem absorb_nil (hs : 0 < size) : absorb f size s [] = s := absorb_of_lt (by simpa using hs)

theorem absorb_flatten (hs : 0 < size) {blocks : List (List α)}
    (hb : ∀ block ∈ blocks, block.length = size) :
    absorb f size s blocks.flatten = blocks.foldl f s := by
  induction blocks generalizing s with
  | nil => exact absorb_nil hs
  | cons block blocks ih =>
    rw [List.flatten_cons, absorb_block hs (hb block List.mem_cons_self), List.foldl_cons]
    exact ih fun other ho => hb other (List.mem_cons_of_mem block ho)

/-- A stream of a whole number of blocks. -/
theorem exists_blocks (n : Nat) (h : xs.length = n * size) :
    ∃ blocks : List (List α), blocks.flatten = xs ∧ ∀ block ∈ blocks, block.length = size := by
  induction n generalizing xs with
  | zero =>
    have hnil : xs = [] := List.length_eq_zero_iff.mp (by omega)
    exact ⟨[], by rw [hnil, List.flatten_nil], by simp⟩
  | succ n ih =>
    rw [Nat.succ_mul] at h
    have hdrop : (xs.drop size).length = n * size := by
      rw [List.length_drop]
      omega
    obtain ⟨blocks, hflatten, hsize⟩ := ih hdrop
    refine ⟨xs.take size :: blocks, ?_, ?_⟩
    · rw [List.flatten_cons, hflatten, List.take_append_drop]
    · intro block hblock
      rcases List.mem_cons.mp hblock with rfl | hblock
      · rw [List.length_take]
        omega
      · exact hsize block hblock

/-- The whole blocks and the rest of a first part, then a second part behind the rest. -/
theorem absorb_rest_append (hs : 0 < size) :
    absorb f size s (xs ++ ys) = absorb f size (absorb f size s xs) (rest size xs ++ ys) ∧
      rest size (xs ++ ys) = rest size (rest size xs ++ ys) := by
  induction hn : xs.length / size generalizing s xs with
  | zero =>
    have hlt : xs.length < size := (Nat.div_eq_zero_iff_lt hs).mp hn
    simp [absorb_of_lt hlt, rest_of_lt hlt]
  | succ n ih =>
    have hle : size ≤ xs.length := by
      by_contra hlt
      rw [Nat.div_eq_of_lt (by omega)] at hn
      omega
    have hb : (xs.take size).length = size := by
      rw [List.length_take]
      omega
    have hdrop : (xs.drop size).length / size = n := by
      have hdiv := Nat.div_eq_sub_div hs hle
      rw [List.length_drop]
      omega
    rw [← List.take_append_drop size xs, List.append_assoc, absorb_block hs hb,
      absorb_block hs hb, rest_block hs hb, rest_block hs hb]
    exact ih hdrop

theorem absorb_append (hs : 0 < size) :
    absorb f size s (xs ++ ys) = absorb f size (absorb f size s xs) (rest size xs ++ ys) :=
  (absorb_rest_append hs).1

theorem rest_append (hs : 0 < size) : rest size (xs ++ ys) = rest size (rest size xs ++ ys) :=
  (absorb_rest_append (f := fun (_ : Unit) (_ : List α) => ()) (s := ()) hs).2

end TelegramClient.Blocks
