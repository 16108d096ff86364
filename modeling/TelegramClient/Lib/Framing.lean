import Mathlib

/-! Streams cut into frames whose length is told by their first items, and what
is left at the end when the last frame is incomplete or not a frame at all. -/

inductive FrameSize where
  | unknown
  | invalid
  | known (size : Nat)
  deriving DecidableEq, Repr

namespace FrameSize

theorem known_ne_unknown {n : Nat} : known n ≠ unknown := nofun

theorem known_ne_invalid {n : Nat} : known n ≠ invalid := nofun

theorem unknown_ne_invalid : unknown ≠ invalid := nofun

end FrameSize

/-- `measure` reads the size of the frame a stream starts with. It may ask for
more input as long as there are fewer than `header` items, and it never changes
its mind when more input comes. -/
structure Framing (α : Type*) where
  measure : List α → FrameSize
  header : Nat
  ne_unknown : ∀ xs, header ≤ xs.length → measure xs ≠ .unknown
  stable : ∀ xs ys, measure xs ≠ .unknown → measure (xs ++ ys) = measure xs
  header_pos : 0 < header
  header_le : ∀ xs n, measure xs = .known n → header ≤ n
  nil_unknown : measure [] = .unknown

namespace Framing

variable {α : Type*} (F : Framing α)

def IsFrame (f : List α) : Prop := F.measure f = .known f.length

/-- No complete frame at the front. -/
def Stuck (xs : List α) : Prop := ∀ n, F.measure xs = .known n → xs.length < n

def cutFuel : Nat → List α → List (List α) × List α
  | 0, xs => ([], xs)
  | fuel + 1, xs =>
    match F.measure xs with
    | .known n =>
      if n ≤ xs.length then
        let tail := cutFuel fuel (xs.drop n)
        (xs.take n :: tail.1, tail.2)
      else ([], xs)
    | _ => ([], xs)

def cut (xs : List α) : List (List α) × List α := F.cutFuel xs.length xs

def frames (xs : List α) : List (List α) := (F.cut xs).1

def rest (xs : List α) : List α := (F.cut xs).2

variable {F}

theorem IsFrame.header_le {f : List α} (h : F.IsFrame f) : F.header ≤ f.length :=
  F.header_le _ _ h

theorem IsFrame.length_pos {f : List α} (h : F.IsFrame f) : 0 < f.length :=
  F.header_pos.trans_le h.header_le

theorem IsFrame.measure_append {f : List α} (h : F.IsFrame f) (xs : List α) :
    F.measure (f ++ xs) = .known f.length := by
  have hm : F.measure f = .known f.length := h
  rw [F.stable f xs (by simp [hm]), hm]

theorem isFrame_take {xs : List α} {n : Nat} (h : F.measure xs = .known n)
    (hn : n ≤ xs.length) : F.IsFrame (xs.take n) := by
  have hl : (xs.take n).length = n := by rw [List.length_take, Nat.min_eq_left hn]
  have hk := F.ne_unknown (xs.take n) (by rw [hl]; exact F.header_le _ _ h)
  have hs := F.stable (xs.take n) (xs.drop n) hk
  rw [List.take_append_drop, h] at hs
  rw [IsFrame, ← hs, hl]

theorem stuck_nil : F.Stuck [] := by
  intro n hn
  rw [F.nil_unknown] at hn
  cases hn

theorem cutFuel_of_stuck {xs : List α} (h : F.Stuck xs) (fuel : Nat) :
    F.cutFuel fuel xs = ([], xs) := by
  cases fuel with
  | zero => rfl
  | succ fuel =>
    cases hm : F.measure xs with
    | unknown => simp [cutFuel, hm]
    | invalid => simp [cutFuel, hm]
    | known n => simp [cutFuel, hm, Nat.not_le.mpr (h n hm)]

theorem cutFuel_eq {fs : List (List α)} {r : List α} (hf : ∀ f ∈ fs, F.IsFrame f)
    (hr : F.Stuck r) {fuel : Nat} (hfuel : fs.length ≤ fuel) :
    F.cutFuel fuel (fs.flatten ++ r) = (fs, r) := by
  induction fs generalizing fuel with
  | nil => simpa using cutFuel_of_stuck hr fuel
  | cons f fs ih =>
    obtain ⟨fuel, rfl⟩ : ∃ k, fuel = k + 1 := ⟨fuel - 1, by simp at hfuel; omega⟩
    have hff := hf f (by simp)
    have hi := ih (fun g hg => hf g (by simp [hg])) (by simpa using hfuel)
    rw [List.flatten_cons, List.append_assoc, cutFuel, hff.measure_append]
    simp [hi]

theorem length_le_flatten_length {fs : List (List α)} (h : ∀ f ∈ fs, F.IsFrame f) :
    fs.length ≤ fs.flatten.length := by
  induction fs with
  | nil => simp
  | cons f fs ih =>
    have hp := (h f (by simp)).length_pos
    have hi := ih fun g hg => h g (by simp [hg])
    simp only [List.length_cons, List.flatten_cons, List.length_append]
    omega

theorem cut_eq {fs : List (List α)} {r : List α} (hf : ∀ f ∈ fs, F.IsFrame f)
    (hr : F.Stuck r) : F.cut (fs.flatten ++ r) = (fs, r) := by
  apply cutFuel_eq hf hr
  have := length_le_flatten_length hf
  rw [List.length_append]
  omega

/-- Every stream is a sequence of complete frames followed by something stuck. -/
theorem exists_cut (F : Framing α) (xs : List α) :
    ∃ (fs : List (List α)) (r : List α), (∀ f ∈ fs, F.IsFrame f) ∧ F.Stuck r ∧ fs.flatten ++ r = xs := by
  induction hl : xs.length using Nat.strong_induction_on generalizing xs with
  | _ l ih =>
    by_cases hs : F.Stuck xs
    · exact ⟨[], xs, by simp, hs, rfl⟩
    · obtain ⟨n, hm, hn⟩ : ∃ n, F.measure xs = .known n ∧ n ≤ xs.length := by
        simpa [Stuck] using hs
      have hpos := F.header_pos.trans_le (F.header_le _ _ hm)
      obtain ⟨fs, r, hf, hr, he⟩ := ih (xs.drop n).length (by rw [List.length_drop]; omega)
        (xs.drop n) rfl
      refine ⟨xs.take n :: fs, r, ?_, hr, ?_⟩
      · intro f hmem
        rcases List.mem_cons.mp hmem with rfl | hmem
        · exact isFrame_take hm hn
        · exact hf f hmem
      · rw [List.flatten_cons, List.append_assoc, he, List.take_append_drop]

theorem flatten_frames_append_rest (xs : List α) : (F.frames xs).flatten ++ F.rest xs = xs := by
  obtain ⟨fs, r, hf, hr, rfl⟩ := F.exists_cut xs
  simp [frames, rest, cut_eq hf hr]

theorem isFrame_of_mem_frames {xs f : List α} (h : f ∈ F.frames xs) : F.IsFrame f := by
  obtain ⟨fs, r, hf, hr, rfl⟩ := F.exists_cut xs
  rw [frames, cut_eq hf hr] at h
  exact hf f h

theorem stuck_rest (xs : List α) : F.Stuck (F.rest xs) := by
  obtain ⟨fs, r, hf, hr, rfl⟩ := F.exists_cut xs
  simpa [rest, cut_eq hf hr] using hr

theorem frames_of_stuck {xs : List α} (h : F.Stuck xs) : F.frames xs = [] := by
  rw [frames, cut, cutFuel_of_stuck h]

theorem rest_of_stuck {xs : List α} (h : F.Stuck xs) : F.rest xs = xs := by
  rw [rest, cut, cutFuel_of_stuck h]

theorem cut_flatten_append {fs : List (List α)} (hf : ∀ f ∈ fs, F.IsFrame f) (xs : List α) :
    F.frames (fs.flatten ++ xs) = fs ++ F.frames xs ∧ F.rest (fs.flatten ++ xs) = F.rest xs := by
  obtain ⟨gs, r, hg, hr, rfl⟩ := F.exists_cut xs
  have hfg : ∀ f ∈ fs ++ gs, F.IsFrame f := fun f h => (List.mem_append.mp h).elim (hf f) (hg f)
  have he := cut_eq hfg hr
  rw [List.flatten_append, List.append_assoc] at he
  simp [frames, rest, he, cut_eq hg hr]

theorem frames_flatten_append {fs : List (List α)} (hf : ∀ f ∈ fs, F.IsFrame f) (xs : List α) :
    F.frames (fs.flatten ++ xs) = fs ++ F.frames xs := (cut_flatten_append hf xs).1

theorem rest_flatten_append {fs : List (List α)} (hf : ∀ f ∈ fs, F.IsFrame f) (xs : List α) :
    F.rest (fs.flatten ++ xs) = F.rest xs := (cut_flatten_append hf xs).2

/-- Cutting in two steps: first what has been read, then the remainder with more input. -/
theorem frames_append (xs ys : List α) :
    F.frames (xs ++ ys) = F.frames xs ++ F.frames (F.rest xs ++ ys) := by
  have hf : ∀ f ∈ F.frames xs, F.IsFrame f := fun f hf => isFrame_of_mem_frames hf
  have h := frames_flatten_append hf (F.rest xs ++ ys)
  rwa [← List.append_assoc, flatten_frames_append_rest] at h

theorem rest_append (xs ys : List α) : F.rest (xs ++ ys) = F.rest (F.rest xs ++ ys) := by
  have hf : ∀ f ∈ F.frames xs, F.IsFrame f := fun f hf => isFrame_of_mem_frames hf
  have h := rest_flatten_append hf (F.rest xs ++ ys)
  rwa [← List.append_assoc, flatten_frames_append_rest] at h

theorem frames_of_known {xs : List α} {n : Nat} (h : F.measure xs = .known n)
    (hn : n ≤ xs.length) : F.frames xs = xs.take n :: F.frames (xs.drop n) := by
  have hone : ∀ f ∈ [xs.take n], F.IsFrame f := by simpa using isFrame_take h hn
  have he := frames_flatten_append hone (xs.drop n)
  simpa using he

theorem rest_of_known {xs : List α} {n : Nat} (h : F.measure xs = .known n)
    (hn : n ≤ xs.length) : F.rest xs = F.rest (xs.drop n) := by
  have hone : ∀ f ∈ [xs.take n], F.IsFrame f := by simpa using isFrame_take h hn
  have he := rest_flatten_append hone (xs.drop n)
  simpa using he

theorem stuck_of_invalid {xs : List α} (h : F.measure xs = .invalid) (ys : List α) :
    F.Stuck (xs ++ ys) ∧ F.measure (xs ++ ys) = .invalid := by
  have hm : F.measure (xs ++ ys) = .invalid := by rw [F.stable xs ys (by simp [h]), h]
  refine ⟨?_, hm⟩
  intro n hn
  rw [hm] at hn
  cases hn

end Framing
