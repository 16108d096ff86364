import Mathlib

/-! Numbers as bytes, lowest byte first; four bytes also with the highest first. -/

def leBytes : Nat → Nat → List UInt8
  | 0, _ => []
  | n + 1, v => UInt8.ofNat v :: leBytes n (v / 256)

def leValue : List UInt8 → Nat
  | [] => 0
  | b :: bs => b.toNat + 256 * leValue bs

theorem leBytes_zero (v : Nat) : leBytes 0 v = [] := rfl

theorem leBytes_succ (n v : Nat) : leBytes (n + 1) v = UInt8.ofNat v :: leBytes n (v / 256) := rfl

theorem leValue_nil : leValue [] = 0 := rfl

theorem leValue_cons (b : UInt8) (bs : List UInt8) : leValue (b :: bs) = b.toNat + 256 * leValue bs :=
  rfl

@[simp] theorem length_leBytes (n v : Nat) : (leBytes n v).length = n := by
  induction n generalizing v with
  | zero => rfl
  | succ n ih => simp [leBytes_succ, ih]

theorem leValue_leBytes (n v : Nat) : leValue (leBytes n v) = v % 256 ^ n := by
  induction n generalizing v with
  | zero => simp [leBytes_zero, leValue_nil, Nat.mod_one]
  | succ n ih =>
    have hb : (UInt8.ofNat v).toNat = v % 256 := by simp
    rw [leBytes_succ, leValue_cons, ih, hb, Nat.pow_succ', Nat.mod_mul]

theorem leValue_leBytes_of_lt {n v : Nat} (h : v < 256 ^ n) : leValue (leBytes n v) = v := by
  rw [leValue_leBytes, Nat.mod_eq_of_lt h]

theorem leValue_lt (bs : List UInt8) : leValue bs < 256 ^ bs.length := by
  induction bs with
  | nil => simp [leValue_nil]
  | cons b bs ih =>
    have hb : b.toNat < 256 := b.toNat_lt
    rw [leValue_cons, List.length_cons, Nat.pow_succ']
    omega

theorem leBytes_leValue (bs : List UInt8) : leBytes bs.length (leValue bs) = bs := by
  induction bs with
  | nil => rfl
  | cons b bs ih =>
    have hb : b.toNat < 256 := b.toNat_lt
    have hd : (b.toNat + 256 * leValue bs) / 256 = leValue bs := by omega
    have hm : UInt8.ofNat (b.toNat + 256 * leValue bs) = b := by
      apply UInt8.toNat_inj.mp
      simp only [UInt8.toNat_ofNat']
      omega
    rw [leValue_cons, List.length_cons, leBytes_succ, hd, hm, ih]

theorem leValue_inj {bs cs : List UInt8} (hl : bs.length = cs.length)
    (h : leValue bs = leValue cs) : bs = cs := by
  rw [← leBytes_leValue bs, ← leBytes_leValue cs, hl, h]

theorem leBytes_add (m n v : Nat) :
    leBytes (m + n) v = leBytes m v ++ leBytes n (v / 256 ^ m) := by
  induction m generalizing v with
  | zero => simp [leBytes_zero]
  | succ m ih =>
    rw [Nat.add_right_comm, leBytes_succ, leBytes_succ, ih, List.cons_append, Nat.pow_succ',
      Nat.div_div_eq_div_mul]

theorem leBytes_mod (n v : Nat) : leBytes n (v % 256 ^ n) = leBytes n v := by
  have h := leBytes_leValue (leBytes n v)
  rwa [length_leBytes, leValue_leBytes] at h

/-- Four bytes with the highest first, as `QDataStream` and `qbswap` write a number. -/
def bigEndian (v : Nat) : List UInt8 := (leBytes 4 v).reverse

theorem length_bigEndian (v : Nat) : (bigEndian v).length = 4 := by
  simp [bigEndian]
