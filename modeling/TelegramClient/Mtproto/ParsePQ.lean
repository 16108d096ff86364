import TelegramClient.Lib.Bits
import TelegramClient.Lib.LittleEndian

/-! The two factors of a number of 64 bits (`mtproto/connection.cpp`): the search for a square that
differs from it by a square. -/

namespace TelegramClient.Mtproto

/-- The operations on numbers of 64 bits; `none` where one is not allowed. -/
structure Arithmetic where
  mul : Nat → Nat → Option Nat
  add : Nat → Nat → Option Nat
  sub : Nat → Nat → Option Nat

/-- What does not fit is cut off. -/
def uint64 : Arithmetic where
  mul a b := some (a * b % 2 ^ 64)
  add a b := some ((a + b) % 2 ^ 64)
  sub a b := some ((a + (2 ^ 64 - b)) % 2 ^ 64)

/-- What does not fit is an error. -/
def checked64 : Arithmetic where
  mul a b := if a * b < 2 ^ 64 then some (a * b) else none
  add a b := if a + b < 2 ^ 64 then some (a + b) else none
  sub a b := if b ≤ a then some (a - b) else none

/-- Results that fit are exact. -/
structure Arithmetic.Exact (o : Arithmetic) : Prop where
  mul : ∀ {a b}, a * b < 2 ^ 64 → o.mul a b = some (a * b)
  add : ∀ {a b}, a + b < 2 ^ 64 → o.add a b = some (a + b)
  sub : ∀ {a b}, a < 2 ^ 64 → b ≤ a → o.sub a b = some (a - b)

theorem uint64_exact : uint64.Exact where
  mul h := congrArg some (Nat.mod_eq_of_lt h)
  add h := congrArg some (Nat.mod_eq_of_lt h)
  sub {a b} ha hb := by
    refine congrArg some ?_
    rw [← Nat.add_sub_assoc (by omega), Nat.add_comm, Nat.add_sub_assoc hb, Nat.add_mod_left,
      Nat.mod_eq_of_lt (by omega)]

theorem checked64_exact : checked64.Exact where
  mul h := if_pos h
  add h := if_pos h
  sub _ h := if_pos h

section Search

variable (o : Arithmetic) (sqrtl : Nat → Nat)

/-- `while (x * x > n) --x`. -/
def lower (n : Nat) : Nat → Nat → Option Nat
  | 0, _ => none
  | fuel + 1, x => do
    let square ← o.mul x x
    if square > n then lower n fuel (← o.sub x 1) else pure x

/-- `while (x * x < n) ++x`. -/
def raise (n : Nat) : Nat → Nat → Option Nat
  | 0, _ => none
  | fuel + 1, x => do
    let square ← o.mul x x
    if square < n then raise n fuel (← o.add x 1) else pure x

def root (fuel n : Nat) : Option Nat := do raise o n fuel (← lower o n fuel (sqrtl n))

/-- The loop over the squares above `pq`. It ends with no factors, or with two. -/
def search (inner pq : Nat) : Nat → Nat → Nat → Option (Option (Nat × Nat))
  | 0, _, _ => none
  | fuel + 1, pqSqrt, ySqr => do
    let y ← root o sqrtl inner ySqr
    if ySqr = 0 then return none
    if (← o.add y pqSqrt) ≥ pq then return none
    if (← o.mul y y) = ySqr then
      let p ← o.add pqSqrt y
      let q ← if pqSqrt > y then o.sub pqSqrt y else o.sub y pqSqrt
      return some (p, q)
    let pqSqrt ← o.add pqSqrt 1
    search inner pq fuel pqSqrt (← o.sub (← o.mul pqSqrt pqSqrt) pq)

def number (pqStr : List UInt8) : Nat :=
  pqStr.foldl (fun pq byte => ((pq <<< 8) % 2 ^ 64) ||| byte.toNat) 0

def fourBytes (n : Nat) : List UInt8 :=
  ((List.range 4).map fun i => UInt8.ofNat ((n >>> (8 * i)) &&& 0xFF)).reverse

/-- The factors, the smaller one first; every loop has `fuel` rounds. -/
def parsePQ (fuel : Nat) (pqStr : List UInt8) : Option (Option (List UInt8 × List UInt8)) :=
  if pqStr.length > 8 then some none
  else do
    let pq := number pqStr
    let pqSqrt ← root o sqrtl fuel pq
    let ySqr ← o.sub (← o.mul pqSqrt pqSqrt) pq
    match ← search o sqrtl fuel pq fuel pqSqrt ySqr with
    | none => return none
    | some (p, q) =>
      let (p, q) := if p > q then (q, p) else (p, q)
      return some (fourBytes p, fourBytes q)

end Search

variable {o : Arithmetic} {sqrtl : Nat → Nat} {n x y fuel : Nat} {p q : Nat}

theorem square_lt (hx : x < 2 ^ 32) : x * x < 2 ^ 64 := by
  have hle : x ≤ 2 ^ 32 - 1 := Nat.le_sub_one_of_lt hx
  calc x * x ≤ (2 ^ 32 - 1) * (2 ^ 32 - 1) := Nat.mul_le_mul hle hle
    _ < 2 ^ 64 := by decide

theorem lower_exact (ho : o.Exact) (hx : x < 2 ^ 32) (hfuel : x < fuel) :
    ∃ y, lower o n fuel x = some y ∧ y * y ≤ n ∧ y ≤ x := by
  induction fuel generalizing x with
  | zero => omega
  | succ fuel ih =>
    have hmul := ho.mul (square_lt hx)
    by_cases hle : x * x ≤ n
    · refine ⟨x, ?_, hle, le_rfl⟩
      simp [lower, hmul, hle]
    · have hpos : 0 < x := by
        by_contra hzero
        rw [Nat.eq_zero_of_not_pos hzero] at hle
        omega
      have hsub := ho.sub (a := x) (b := 1) (by omega) hpos
      obtain ⟨y, hy, hsquare, hyx⟩ := ih (x := x - 1) (by omega) (by omega)
      refine ⟨y, ?_, hsquare, by omega⟩
      simp [lower, hmul, hle, hsub, hy]

/-- From below the loop comes to the least number whose square is not below `n`. -/
theorem raise_exact (ho : o.Exact) {least : Nat} (hleast : IsLeast {z | n ≤ z * z} least)
    (hbound : least < 2 ^ 32) (hx : x ≤ least) (hfuel : least - x < fuel) :
    raise o n fuel x = some least := by
  induction fuel generalizing x with
  | zero => omega
  | succ fuel ih =>
    have hmul := ho.mul (square_lt (Nat.lt_of_le_of_lt hx hbound))
    by_cases hlt : x * x < n
    · have hne : x ≠ least := by
        rintro rfl
        exact absurd hleast.1 (Nat.not_le.mpr hlt)
      have hadd := ho.add (a := x) (b := 1) (by omega)
      have hnext := ih (x := x + 1) (by omega) (by omega)
      simp [raise, hmul, hlt, hadd, hnext]
    · have heq : x = least := Nat.le_antisymm hx (hleast.2 (Nat.not_lt.mp hlt))
      subst heq
      simp [raise, hmul, hlt]

theorem root_exact (ho : o.Exact) (hsqrtl : ∀ n, sqrtl n ≤ 2 ^ 32 - 1) (hx : n ≤ x * x)
    (hbound : x < 2 ^ 32) (hfuel : 2 ^ 32 < fuel) :
    ∃ least, root o sqrtl fuel n = some least ∧ IsLeast {z | n ≤ z * z} least := by
  have hestimate := hsqrtl n
  obtain ⟨y, hy, hsquare, -⟩ := @lower_exact o n (sqrtl n) fuel ho (by omega) (by omega)
  have hexists : ∃ z, n ≤ z * z := ⟨x, hx⟩
  have hleast : IsLeast {z | n ≤ z * z} (Nat.find hexists) :=
    ⟨Nat.find_spec hexists, fun z hz => Nat.find_min' hexists hz⟩
  have hle : Nat.find hexists ≤ x := hleast.2 hx
  have hyleast : y ≤ Nat.find hexists :=
    Nat.mul_self_le_mul_self_iff.mp (Nat.le_trans hsquare hleast.1)
  refine ⟨Nat.find hexists, ?_, hleast⟩
  rw [root, hy]
  exact raise_exact ho hleast (by omega) hyleast (by omega)

/-- The only two factors that are both above one. -/
theorem factors_unique (hp : p.Prime) (hq : q.Prime) (hlt : p < q) {a b : Nat} (ha : 1 < a)
    (hab : a < b) (h : a * b = p * q) : a = p ∧ b = q := by
  have hdvd : p ∣ a * b := ⟨q, h⟩
  rcases hp.dvd_mul.mp hdvd with ⟨k, rfl⟩ | ⟨k, rfl⟩
  · have hkq : k * b = q := Nat.eq_of_mul_eq_mul_left hp.pos (by rw [← h, Nat.mul_assoc])
    rcases hq.eq_one_or_self_of_dvd k ⟨b, hkq.symm⟩ with rfl | rfl
    · exact ⟨Nat.mul_one p, by rw [← hkq, Nat.one_mul]⟩
    · have hb : b = 1 := Nat.eq_of_mul_eq_mul_left hq.pos (by rw [hkq, Nat.mul_one])
      omega
  · have hkq : a * k = q := Nat.eq_of_mul_eq_mul_left hp.pos (by rw [← h]; ring)
    rcases hq.eq_one_or_self_of_dvd a ⟨k, hkq.symm⟩ with rfl | rfl
    · omega
    · have hk : k = 1 := Nat.eq_of_mul_eq_mul_left hq.pos (by rw [hkq, Nat.mul_one])
      subst hk
      omega

theorem exists_halves (hp : p.Prime) (hodd : Odd p) (hq : q.Prime) (hlt : p < q) :
    ∃ d, 0 < d ∧ q = p + 2 * d := by
  have htwo := hp.two_le
  have hqodd : Odd q := hq.odd_of_ne_two (by omega)
  obtain ⟨k, rfl⟩ := hodd
  obtain ⟨l, rfl⟩ := hqodd
  exact ⟨l - k, by omega, by omega⟩

/-- From a square above `pq` the search comes to the half of the sum of the factors. -/
theorem search_exact (ho : o.Exact) (hsqrtl : ∀ n, sqrtl n ≤ 2 ^ 32 - 1) {d inner s : Nat}
    (hp : p.Prime) (hq : (p + 2 * d).Prime) (hd : 0 < d) (hbound : p + 2 * d < 2 ^ 32)
    (hinner : 2 ^ 32 < inner) (hsquare : p * (p + 2 * d) < s * s) (hs : s ≤ p + d)
    (hfuel : p + d - s < fuel) :
    search o sqrtl inner (p * (p + 2 * d)) fuel s (s * s - p * (p + 2 * d)) =
      some (some (p + 2 * d, p)) := by
  induction fuel generalizing s with
  | zero => omega
  | succ fuel ih =>
    have htwo := hp.two_le
    have hhalf : (p + d) * (p + d) = p * (p + 2 * d) + d * d := by ring
    have hupper : s * s ≤ (p + d) * (p + d) := Nat.mul_le_mul hs hs
    have hq2 : p + 2 * d < p * (p + 2 * d) := by
      calc p + 2 * d < 2 * (p + 2 * d) := by omega
        _ ≤ p * (p + 2 * d) := Nat.mul_le_mul_right _ htwo
    generalize hpq : p * (p + 2 * d) = pq at *
    obtain ⟨y, hroot, hleast⟩ := root_exact ho hsqrtl (show s * s - pq ≤ d * d by omega) (by omega) hinner
    have hyd : y ≤ d := hleast.2 (show s * s - pq ≤ d * d by omega)
    have hadd := ho.add (a := y) (b := s) (by omega)
    have hmul := ho.mul (square_lt (show y < 2 ^ 32 by omega))
    have hne : s * s - pq ≠ 0 := by omega
    have hless : ¬y + s ≥ pq := by omega
    by_cases hfound : y * y = s * s - pq
    · have hys : y < s := Nat.mul_self_lt_mul_self_iff.mp (by omega)
      have hypos : 0 < y := Nat.pos_of_mul_pos_left (by omega : 0 < y * y)
      have hproduct : (s - y) * (s + y) = p * (p + 2 * d) := by
        rw [Nat.mul_comm, ← Nat.mul_self_sub_mul_self_eq]
        omega
      have hone : 1 < s - y := by
        by_contra hle
        have hle' : (s - y) * (s + y) ≤ 1 * (s + y) := Nat.mul_le_mul_right _ (by omega)
        omega
      obtain ⟨hsub, hsum⟩ := factors_unique hp hq (by omega) hone (by omega) hproduct
      have hadd' := ho.add (a := s) (b := y) (by omega)
      have hsub' := ho.sub (a := s) (b := y) (by omega) (by omega)
      rw [hsum] at hadd'
      rw [hsub] at hsub'
      simp [search, hroot, hne, hadd, hless, hmul, hfound, hadd', hys, hsub']
    · have hnot : s ≠ p + d := by
        rintro rfl
        have hd' : y = d := by
          refine Nat.le_antisymm hyd (Nat.mul_self_le_mul_self_iff.mp ?_)
          have hmem : (p + d) * (p + d) - pq ≤ y * y := hleast.1
          omega
        rw [hd'] at hfound
        omega
      have hadd' := ho.add (a := s) (b := 1) (by omega)
      have hmul' := ho.mul (square_lt (show s + 1 < 2 ^ 32 by omega))
      have hmore : s * s ≤ (s + 1) * (s + 1) := Nat.mul_le_mul (by omega) (by omega)
      have hsub' := ho.sub (a := (s + 1) * (s + 1)) (b := pq)
        (square_lt (show s + 1 < 2 ^ 32 by omega)) (by omega)
      have hrest := ih (s := s + 1) (by omega) (by omega) (by omega)
      simp [search, hroot, hne, hadd, hless, hmul, hfound, hadd', hmul', hsub', hrest]

theorem leValue_append (bytes bytes' : List UInt8) :
    leValue (bytes ++ bytes') = leValue bytes + 256 ^ bytes.length * leValue bytes' := by
  induction bytes with
  | nil => simp [leValue]
  | cons byte bytes ih =>
    rw [List.cons_append, leValue, ih, leValue, List.length_cons, Nat.pow_succ']
    ring

theorem foldl_number (pqStr : List UInt8) {k start : Nat} (hstart : start < 256 ^ k)
    (hlength : k + pqStr.length ≤ 8) :
    pqStr.foldl (fun pq byte => ((pq <<< 8) % 2 ^ 64) ||| byte.toNat) start =
      start * 256 ^ pqStr.length + leValue pqStr.reverse := by
  induction pqStr generalizing k start with
  | nil => simp [leValue]
  | cons byte pqStr ih =>
    rw [List.length_cons] at hlength
    have hbyte : byte.toNat < 2 ^ 8 := byte.toNat_lt
    have hk : 256 ^ (k + 1) ≤ 2 ^ 64 :=
      (Nat.pow_le_pow_right (by decide) (by omega : k + 1 ≤ 8)).trans (by norm_num)
    have hnext : start * 256 + byte.toNat < 256 ^ (k + 1) := by
      rw [Nat.pow_succ]
      omega
    have hfit : start * 2 ^ 8 < 2 ^ 64 :=
      Nat.lt_of_lt_of_le (Nat.lt_of_le_of_lt (Nat.le_add_right _ _) hnext) hk
    have hor : ((start <<< 8) % 2 ^ 64) ||| byte.toNat = start * 256 + byte.toNat := by
      rw [Nat.shiftLeft_eq, Nat.mod_eq_of_lt hfit]
      exact Bits.mul_or hbyte
    rw [List.foldl_cons, hor, ih hnext (by omega), List.reverse_cons, leValue_append, leValue,
      leValue, List.length_reverse, List.length_cons, Nat.pow_succ]
    ring

theorem number_eq {pqStr : List UInt8} (hlength : pqStr.length ≤ 8) :
    number pqStr = leValue pqStr.reverse := by
  rw [number, foldl_number (k := 0) pqStr (by decide) (by omega), Nat.zero_mul, Nat.zero_add]

theorem fourBytes_eq (n : Nat) : fourBytes n = bigEndian n := by
  have hbyte : ∀ m : Nat, UInt8.ofNat (m &&& 0xFF) = UInt8.ofNat m := by
    intro m
    apply UInt8.toNat_inj.mp
    rw [UInt8.toNat_ofNat', UInt8.toNat_ofNat', Nat.and_two_pow_sub_one_eq_mod m 8, Nat.mod_mod]
  have hrange : List.range 4 = [0, 1, 2, 3] := rfl
  rw [fourBytes, bigEndian, hrange]
  simp only [hbyte, List.map_cons, List.map_nil, Nat.shiftRight_eq_div_pow, leBytes,
    Nat.div_div_eq_div_mul]
  norm_num

theorem parsePQ_exact (ho : o.Exact) (hsqrtl : ∀ n, sqrtl n ≤ 2 ^ 32 - 1) {pqStr : List UInt8}
    (hp : p.Prime) (hodd : Odd p) (hq : q.Prime) (hlt : p < q) (hbound : q < 2 ^ 32)
    (hlength : pqStr.length ≤ 8) (hpq : leValue pqStr.reverse = p * q) (hfuel : 2 ^ 32 < fuel) :
    parsePQ o sqrtl fuel pqStr = some (some (bigEndian p, bigEndian q)) := by
  obtain ⟨d, hd, rfl⟩ := exists_halves hp hodd hq hlt
  have hhalf : (p + d) * (p + d) = p * (p + 2 * d) + d * d := by ring
  obtain ⟨s, hroot, hleast⟩ := root_exact ho hsqrtl
    (show p * (p + 2 * d) ≤ (p + d) * (p + d) by omega) (by omega) hfuel
  have hs : s ≤ p + d := hleast.2 (show p * (p + 2 * d) ≤ (p + d) * (p + d) by omega)
  -- the product of two different primes is no square
  have hne : s * s ≠ p * (p + 2 * d) := by
    intro heq
    have hone : ∀ r : Nat, r.Prime → r ∣ p * (p + 2 * d) → r ∣ s := fun r hr hdvd =>
      (hr.dvd_mul.mp (heq ▸ hdvd)).elim id id
    have hboth : p * (p + 2 * d) ∣ s :=
      ((Nat.coprime_primes hp hq).mpr (by omega)).mul_dvd_of_dvd_of_dvd
        (hone p hp (Nat.dvd_mul_right _ _)) (hone _ hq (Nat.dvd_mul_left _ _))
    have hpos : 0 < s := Nat.pos_of_ne_zero fun hzero => by
      rw [hzero] at heq
      exact absurd heq.symm (Nat.mul_ne_zero hp.ne_zero hq.ne_zero)
    have hle := Nat.le_of_dvd hpos hboth
    have hsmall : s * 1 < s * s := Nat.mul_lt_mul_of_pos_left (by
      have htwo := hp.two_le
      have hmore : 2 * (p + 2 * d) ≤ p * (p + 2 * d) := Nat.mul_le_mul_right _ htwo
      omega) hpos
    omega
  have habove : p * (p + 2 * d) < s * s := Nat.lt_of_le_of_ne hleast.1 (Ne.symm hne)
  have hmul := ho.mul (square_lt (show s < 2 ^ 32 by omega))
  have hsub := ho.sub (b := p * (p + 2 * d)) (square_lt (show s < 2 ^ 32 by omega)) habove.le
  have hsearch := search_exact ho hsqrtl hp hq hd hbound hfuel habove hs
    (show p + d - s < fuel by omega)
  have hnumber : number pqStr = p * (p + 2 * d) := by rw [number_eq hlength, hpq]
  simp [parsePQ, Nat.not_lt.mpr hlength, hnumber, hroot, hmul, hsub, hsearch, hd, fourBytes_eq]

/-- In either arithmetic: no operation gets out of its range, and the loops end. -/
theorem parsePQ_factors (hp : p.Prime) (hodd : Odd p) (hq : q.Prime) (hlt : p < q)
    (hbound : q < 2 ^ 32) (hsqrtl : ∀ n, sqrtl n ≤ 2 ^ 32 - 1) {pqStr : List UInt8}
    (hlength : pqStr.length ≤ 8) (hpq : leValue pqStr.reverse = p * q) (hfuel : 2 ^ 32 < fuel) :
    parsePQ checked64 sqrtl fuel pqStr = some (some (bigEndian p, bigEndian q)) ∧
    parsePQ uint64 sqrtl fuel pqStr = some (some (bigEndian p, bigEndian q)) :=
  ⟨parsePQ_exact checked64_exact hsqrtl hp hodd hq hlt hbound hlength hpq hfuel,
    parsePQ_exact uint64_exact hsqrtl hp hodd hq hlt hbound hlength hpq hfuel⟩

theorem parsePQ_factors_fifteen :
    parsePQ checked64 (fun _ => 3) (2 ^ 32 + 1) [15] = some (some (bigEndian 3, bigEndian 5)) ∧
    parsePQ uint64 (fun _ => 3) (2 ^ 32 + 1) [15] = some (some (bigEndian 3, bigEndian 5)) :=
  parsePQ_factors (by norm_num) (by decide) (by norm_num) (by decide) (by decide)
    (fun _ => by decide) (by decide) (by decide) (by decide)

end TelegramClient.Mtproto
