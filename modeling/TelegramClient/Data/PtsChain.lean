import Mathlib
import TelegramClient.Lib.TreeMap
import TelegramClient.Data.PtsWaiter

/-! Delivering a chain of updates with consecutive pts out of order. The waiter
only compares the highest pts with the sum of the counts it has seen; on a chain
the two agree exactly when the updates seen so far leave no gap. -/

namespace TelegramClient

variable {U Us : Type}

structure PtsUpdate (U Us : Type) where
  payload : Payload U Us
  pts : Int
  count : Int

def PtsChain : Int → List (PtsUpdate U Us) → Prop
  | _, [] => True
  | p, u :: us => 0 < u.count ∧ u.pts = p + u.count ∧ u.pts < 2 ^ 31 ∧ PtsChain u.pts us

def endPts (p : Int) (us : List (PtsUpdate U Us)) : Int :=
  us.foldl (fun _ u => u.pts) p

def totalCount (us : List (PtsUpdate U Us)) : Int := (us.map PtsUpdate.count).sum

def maxPts (p : Int) (us : List (PtsUpdate U Us)) : Int :=
  us.foldr (fun u m => max u.pts m) p

def calls (us : List (PtsUpdate U Us)) : List (ApiCall U Us) :=
  us.filterMap fun u => u.payload.call

def taggedCalls (us : List (PtsUpdate U Us)) : List (Nat × ApiCall U Us) :=
  us.filterMap fun u => u.payload.call.map (u.pts.toNat, ·)

@[simp] theorem endPts_append (p : Int) (us vs : List (PtsUpdate U Us)) :
    endPts p (us ++ vs) = endPts (endPts p us) vs := by
  simp [endPts]

@[simp] theorem endPts_cons (p : Int) (u : PtsUpdate U Us) (us : List (PtsUpdate U Us)) :
    endPts p (u :: us) = endPts u.pts us := rfl

@[simp] theorem calls_append (us vs : List (PtsUpdate U Us)) :
    calls (us ++ vs) = calls us ++ calls vs := by
  simp [calls]

theorem taggedCalls_snd (us : List (PtsUpdate U Us)) :
    (taggedCalls us).map Prod.snd = calls us := by
  induction us with
  | nil => rfl
  | cons u us ih => cases h : u.payload.call <;> simp_all [taggedCalls, calls]

theorem maxPts_max (p q : Int) (us : List (PtsUpdate U Us)) :
    maxPts (max p q) us = max p (maxPts q us) := by
  induction us with
  | nil => rfl
  | cons u us ih =>
    simp only [maxPts, List.foldr_cons] at ih ⊢
    rw [ih, max_left_comm]

theorem totalCount_perm {us vs : List (PtsUpdate U Us)} (h : us.Perm vs) :
    totalCount us = totalCount vs := (h.map _).sum_eq

theorem maxPts_perm {us vs : List (PtsUpdate U Us)} (h : us.Perm vs) (p : Int) :
    maxPts p us = maxPts p vs := by
  have : LeftCommutative fun (u : PtsUpdate U Us) (m : Int) => max u.pts m :=
    ⟨fun u v m => max_left_comm u.pts v.pts m⟩
  exact h.foldr_eq p

/-! ### Chains -/

theorem PtsChain.lt_of_mem {p : Int} {us : List (PtsUpdate U Us)} (h : PtsChain p us)
    {u : PtsUpdate U Us} (hu : u ∈ us) : p < u.pts ∧ u.pts < 2 ^ 31 := by
  induction us generalizing p with
  | nil => cases hu
  | cons v vs ih =>
    obtain ⟨hc, hp, hb, ht⟩ := h
    rcases List.mem_cons.mp hu with rfl | hu
    · exact ⟨by omega, hb⟩
    · have := ih ht hu
      exact ⟨by omega, this.2⟩

theorem PtsChain.count_pos {p : Int} {us : List (PtsUpdate U Us)} (h : PtsChain p us)
    {u : PtsUpdate U Us} (hu : u ∈ us) : 0 < u.count := by
  induction us generalizing p with
  | nil => cases hu
  | cons v vs ih =>
    rcases List.mem_cons.mp hu with rfl | hu
    · exact h.1
    · exact ih h.2.2.2 hu

theorem PtsChain.append {p : Int} {us vs : List (PtsUpdate U Us)} :
    PtsChain p (us ++ vs) ↔ PtsChain p us ∧ PtsChain (endPts p us) vs := by
  induction us generalizing p with
  | nil => simp [PtsChain, endPts]
  | cons u us ih => simp [PtsChain, ih, and_assoc]

theorem PtsChain.pairwise {p : Int} {us : List (PtsUpdate U Us)} (h : PtsChain p us) :
    us.Pairwise fun u v => u.pts < v.pts := by
  induction us generalizing p with
  | nil => exact List.Pairwise.nil
  | cons u us ih =>
    exact List.pairwise_cons.mpr ⟨fun v hv => (h.2.2.2.lt_of_mem hv).1, ih h.2.2.2⟩

theorem PtsChain.le_endPts {p : Int} {us : List (PtsUpdate U Us)} (h : PtsChain p us) :
    p ≤ endPts p us ∧ ∀ u ∈ us, u.pts ≤ endPts p us := by
  induction us generalizing p with
  | nil => simp [endPts]
  | cons u us ih =>
    obtain ⟨hc, hp, _, ht⟩ := h
    have hi := ih ht
    refine ⟨by rw [endPts_cons]; omega, fun v hv => ?_⟩
    rcases List.mem_cons.mp hv with rfl | hv
    · exact hi.1
    · exact hi.2 v hv

theorem PtsChain.maxPts_eq {p : Int} {us : List (PtsUpdate U Us)} (h : PtsChain p us) :
    maxPts p us = endPts p us := by
  induction us generalizing p with
  | nil => rfl
  | cons u us ih =>
    obtain ⟨hc, hp, _, ht⟩ := h
    have hm : maxPts p (u :: us) = maxPts (max u.pts p) us := (maxPts_max u.pts p us).symm
    rw [hm, max_eq_left (by omega), endPts_cons, ih ht]

theorem PtsChain.eq_of_pts {p : Int} {us : List (PtsUpdate U Us)} (h : PtsChain p us)
    {u v : PtsUpdate U Us} (hu : u ∈ us) (hv : v ∈ us) (he : u.pts = v.pts) : u = v := by
  induction us generalizing p with
  | nil => cases hu
  | cons w us ih =>
    have ht := h.2.2.2
    rcases List.mem_cons.mp hu with rfl | hu' <;> rcases List.mem_cons.mp hv with rfl | hv'
    · rfl
    · exact absurd he (ht.lt_of_mem hv').1.ne
    · exact absurd he.symm (ht.lt_of_mem hu').1.ne
    · exact ih ht hu' hv'

/-- The counting argument of `check`: among the updates of a chain picked by
`pick`, the sum of the counts never passes the highest pts, and reaches it only
when the picked ones are an initial segment. -/
theorem PtsChain.picked {p : Int} {us : List (PtsUpdate U Us)} (h : PtsChain p us)
    (pick : PtsUpdate U Us → Bool) :
    p + totalCount (us.filter pick) ≤ maxPts p (us.filter pick) ∧
    (p + totalCount (us.filter pick) = maxPts p (us.filter pick) →
      ∃ rest, us = us.filter pick ++ rest ∧ rest.filter pick = []) := by
  induction us generalizing p with
  | nil => exact ⟨by simp [totalCount, maxPts], fun _ => ⟨[], rfl, rfl⟩⟩
  | cons u us ih =>
    obtain ⟨hc, hp, _, ht⟩ := h
    have hi := ih ht
    by_cases hu : pick u = true
    · have hs : totalCount (u :: us.filter pick) = u.count + totalCount (us.filter pick) := by
        simp [totalCount]
      have hm : maxPts p (u :: us.filter pick) = maxPts u.pts (us.filter pick) := by
        have hm := maxPts_max u.pts p (us.filter pick)
        rw [max_eq_left (by omega)] at hm
        exact hm.symm
      rw [List.filter_cons_of_pos hu, hs, hm]
      refine ⟨by omega, fun he => ?_⟩
      obtain ⟨rest, hr, hn⟩ := hi.2 (by omega)
      exact ⟨rest, by rw [List.cons_append, ← hr], hn⟩
    · rw [List.filter_cons_of_neg hu]
      cases hf : us.filter pick with
      | nil =>
        refine ⟨by simp [totalCount, maxPts], fun _ => ⟨u :: us, rfl, ?_⟩⟩
        rw [List.filter_cons_of_neg hu, hf]
      | cons v vs =>
        have hv : p < v.pts := by
          have hm : v ∈ us := (List.mem_filter.mp (hf ▸ List.mem_cons_self)).1
          have := (ht.lt_of_mem hm).1
          omega
        have hle : maxPts u.pts (v :: vs) ≤ maxPts p (v :: vs) := by
          have hup := (ht.lt_of_mem (List.mem_filter.mp (hf ▸ List.mem_cons_self (a := v) (l := vs))).1).1
          have h1 := maxPts_max u.pts p (v :: vs)
          rw [max_eq_left (by omega)] at h1
          have h2 : v.pts ≤ maxPts p (v :: vs) := le_max_left _ _
          rw [h1]
          exact max_le (by omega) le_rfl
        have hi1 := hi.1
        rw [hf] at hi1
        exact ⟨by omega, fun he => absurd he (by omega)⟩

end TelegramClient
