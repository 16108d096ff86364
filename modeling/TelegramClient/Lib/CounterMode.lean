import Mathlib
import TelegramClient.Lib.LittleEndian

/-! Encryption by a keystream whose blocks are the cipher of a counter, so that
every byte depends on its position only. -/

namespace CounterMode

def blockSize : Nat := 16

/-- A block of bytes as a counter, highest byte first. -/
def add (iv : List UInt8) (n : Nat) : List UInt8 :=
  (leBytes iv.length (leValue iv.reverse + n)).reverse

theorem reverse_add (iv : List UInt8) (n : Nat) :
    (add iv n).reverse = leBytes iv.length (leValue iv.reverse + n) :=
  List.reverse_reverse _

@[simp] theorem length_add (iv : List UInt8) (n : Nat) : (add iv n).length = iv.length := by
  rw [← List.length_reverse, reverse_add, length_leBytes]

@[simp] theorem add_zero (iv : List UInt8) : add iv 0 = iv := by
  have h := leBytes_leValue iv.reverse
  rw [List.length_reverse] at h
  rw [← List.reverse_reverse (add iv 0), reverse_add, Nat.add_zero, h, List.reverse_reverse]

theorem leValue_add (iv : List UInt8) (n : Nat) :
    leValue (add iv n).reverse = (leValue iv.reverse + n) % 256 ^ iv.length := by
  rw [reverse_add, leValue_leBytes]

theorem add_add (iv : List UInt8) (m n : Nat) : add (add iv m) n = add iv (m + n) := by
  apply List.reverse_injective
  rw [reverse_add, leValue_add, reverse_add, length_add, ← leBytes_mod, Nat.add_mod, Nat.mod_mod,
    ← Nat.add_mod, leBytes_mod, Nat.add_assoc]

variable (cipher : List UInt8 → List UInt8)

def xorBlock (block pad : List UInt8) : List UInt8 := List.zipWith (· ^^^ ·) block pad

/-- Whole blocks under successive counters. -/
def encryptBlocks : Nat → List UInt8 → List UInt8 → List UInt8
  | 0, _, _ => []
  | n + 1, iv, data =>
    xorBlock (data.take blockSize) (cipher iv) ++
      encryptBlocks n (add iv 1) (data.drop blockSize)

/-- The keystream byte of a position. -/
def pad (iv : List UInt8) (i : Nat) : UInt8 := (cipher (add iv (i / blockSize))).getD (i % blockSize) 0

def xorFrom (iv : List UInt8) : Nat → List UInt8 → List UInt8
  | _, [] => []
  | i, b :: bs => (b ^^^ pad cipher iv i) :: xorFrom iv (i + 1) bs

variable {cipher} {iv : List UInt8}

theorem xorFrom_nil (i : Nat) : xorFrom cipher iv i [] = [] := rfl

theorem xorFrom_cons (i : Nat) (b : UInt8) (bs : List UInt8) :
    xorFrom cipher iv i (b :: bs) = (b ^^^ pad cipher iv i) :: xorFrom cipher iv (i + 1) bs :=
  rfl

@[simp] theorem length_xorFrom (i : Nat) (bs : List UInt8) :
    (xorFrom cipher iv i bs).length = bs.length := by
  induction bs generalizing i with
  | nil => rfl
  | cons b bs ih => simp [xorFrom_cons, ih]

theorem xorFrom_append (i : Nat) (bs cs : List UInt8) :
    xorFrom cipher iv i (bs ++ cs) = xorFrom cipher iv i bs ++ xorFrom cipher iv (i + bs.length) cs := by
  induction bs generalizing i with
  | nil => rfl
  | cons b bs ih =>
    simp only [List.cons_append, xorFrom_cons, ih, List.length_cons]
    rw [Nat.add_right_comm, Nat.add_assoc]

theorem xorFrom_xorFrom (i : Nat) (bs : List UInt8) :
    xorFrom cipher iv i (xorFrom cipher iv i bs) = bs := by
  induction bs generalizing i with
  | nil => rfl
  | cons b bs ih => simp [xorFrom_cons, ih]

theorem take_xorFrom (i n : Nat) (bs : List UInt8) :
    (xorFrom cipher iv i bs).take n = xorFrom cipher iv i (bs.take n) := by
  induction bs generalizing i n with
  | nil => simp [xorFrom_nil]
  | cons b bs ih =>
    cases n with
    | zero => rfl
    | succ n => simp [xorFrom_cons, ih]

theorem drop_xorFrom (i n : Nat) (bs : List UInt8) :
    (xorFrom cipher iv i bs).drop n = xorFrom cipher iv (i + n) (bs.drop n) := by
  induction bs generalizing i n with
  | nil => simp [xorFrom_nil]
  | cons b bs ih =>
    cases n with
    | zero => rfl
    | succ n =>
      simp only [xorFrom_cons, List.drop_succ_cons, ih]
      rw [Nat.add_right_comm, Nat.add_assoc]

theorem xorBlock_eq {block : List UInt8} (k : Nat) (hb : block.length ≤ blockSize)
    (hc : (cipher (add iv k)).length = blockSize) :
    xorBlock block (cipher (add iv k)) = xorFrom cipher iv (blockSize * k) block := by
  have hpad : ∀ j, j < blockSize →
      pad cipher iv (blockSize * k + j) = (cipher (add iv k)).getD j 0 := by
    intro j hj
    simp only [pad, blockSize] at hj ⊢
    rw [Nat.mul_add_div (by decide), Nat.div_eq_of_lt hj, Nat.add_zero, Nat.mul_add_mod,
      Nat.mod_eq_of_lt hj]
  have hstep : ∀ (bs : List UInt8) (j : Nat), j + bs.length ≤ blockSize →
      List.zipWith (· ^^^ ·) bs ((cipher (add iv k)).drop j) =
        xorFrom cipher iv (blockSize * k + j) bs := by
    intro bs
    induction bs with
    | nil => simp [xorFrom_nil]
    | cons b bs ih =>
      intro j hj
      rw [List.length_cons] at hj
      have hlt : j < (cipher (add iv k)).length := by omega
      have hi := ih (j + 1) (by omega)
      rw [List.drop_eq_getElem_cons hlt, List.zipWith_cons_cons, hi, xorFrom_cons, hpad j (by omega),
        List.getD_eq_getElem _ _ hlt, Nat.add_assoc]
  have := hstep block 0 (by omega)
  rwa [List.drop_zero, Nat.add_zero] at this

/-- Encrypting from a block on gives the same bytes as encrypting from the start. -/
theorem encryptBlocks_eq (hc : ∀ b, (cipher b).length = blockSize) (n k : Nat) {data : List UInt8}
    (hd : data.length = blockSize * n) :
    encryptBlocks cipher n (add iv k) data = xorFrom cipher iv (blockSize * k) data := by
  induction n generalizing k data with
  | zero =>
    have : data = [] := List.length_eq_zero_iff.mp (by simpa using hd)
    simp [encryptBlocks, xorFrom_nil, this]
  | succ n ih =>
    have htake : (data.take blockSize).length = blockSize := by
      rw [List.length_take, hd, Nat.mul_succ]
      omega
    have hdrop : (data.drop blockSize).length = blockSize * n := by
      rw [List.length_drop, hd, Nat.mul_succ]
      omega
    rw [encryptBlocks, add_add, ih (k + 1) hdrop, xorBlock_eq k htake.le (hc _), Nat.mul_succ]
    conv_rhs => rw [← List.take_append_drop blockSize data, xorFrom_append, htake]

end CounterMode
