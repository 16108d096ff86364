import Mathlib

/-! The photos of one user, the oldest first. The end of the list on the server is known, up to the
newest photo. -/

namespace TelegramClient

abbrev PhotoId := UInt64

/-- `UserPhotos::List`. -/
structure UserPhotosList where
  count : Option Int := none
  photoIds : List PhotoId := []

/-- The limits are never negative. -/
structure UserPhotosQuery where
  photoId : PhotoId
  limitBefore : Nat
  limitAfter : Nat

structure UserPhotosResult where
  count : Option Int := none
  skippedBefore : Option Int := none
  skippedAfter : Int := 0
  photoIds : List PhotoId := []

namespace UserPhotosList

def addNew (l : UserPhotosList) (photoId : PhotoId) : UserPhotosList :=
  if photoId ∈ l.photoIds then l
  else { count := l.count.map (· + 1), photoIds := l.photoIds ++ [photoId] }

def pushFront (stored : List PhotoId) (photoId : PhotoId) : List PhotoId :=
  if photoId ∈ stored then stored else photoId :: stored

/-- The count is compared with the size as an unsigned number: a negative one is never less. -/
def addSlice (l : UserPhotosList) (photoIds : List PhotoId) (count : Int) : UserPhotosList :=
  let stored := photoIds.foldl pushFront l.photoIds
  { count :=
      if (0 ≤ count ∧ count < stored.length) ∨ photoIds = [] then some stored.length
      else some count
    photoIds := stored }

def removeOne (l : UserPhotosList) (photoId : PhotoId) : UserPhotosList :=
  if photoId ∈ l.photoIds then
    { count := l.count.map (· - 1), photoIds := l.photoIds.erase photoId }
  else { l with count := none }

def removeAfter (l : UserPhotosList) (photoId : PhotoId) : UserPhotosList :=
  if photoId ∈ l.photoIds then
    let position := l.photoIds.idxOf photoId
    { count := l.count.map (· - (l.photoIds.length - position : Nat))
      photoIds := l.photoIds.take position }
  else { count := none, photoIds := [] }

/-- The first value of `skippedBefore`, from the count, is overwritten. -/
def query (l : UserPhotosList) (query : UserPhotosQuery) : Option UserPhotosResult :=
  if query.photoId ∈ l.photoIds then
    let position := l.photoIds.idxOf query.photoId
    let haveBefore := position
    let haveEqualOrAfter := l.photoIds.length - position
    let before := min haveBefore query.limitBefore
    let equalOrAfter := min haveEqualOrAfter (query.limitAfter + 1)
    some
      { count := l.count
        photoIds := (l.photoIds.drop (position - before)).take (before + equalOrAfter)
        skippedBefore := some (haveBefore - before : Int)
        skippedAfter := haveEqualOrAfter - equalOrAfter }
  else if l.count.isSome then some { count := l.count }
  else none

inductive Call where
  | addNew (photoId : PhotoId)
  | addSlice (photoIds : List PhotoId) (count : Int)
  | removeOne (photoId : PhotoId)
  | removeAfter (photoId : PhotoId)

def step (l : UserPhotosList) : Call → UserPhotosList
  | .addNew photoId => l.addNew photoId
  | .addSlice photoIds count => l.addSlice photoIds count
  | .removeOne photoId => l.removeOne photoId
  | .removeAfter photoId => l.removeAfter photoId

/-- The lists that calls with the property reach from an empty one. -/
inductive Reached (P : UserPhotosList → Call → Prop) : UserPhotosList → Prop
  | empty : Reached P {}
  | step {l : UserPhotosList} {call : Call} (hl : Reached P l) (hcall : P l call) :
      Reached P (l.step call)

/-- When the count and what is skipped before are known, they agree with each other, and the photos
are those at their place in the list. -/
def Agrees (l : UserPhotosList) (r : UserPhotosResult) : Prop :=
  ∀ count ∈ r.count, ∀ skippedBefore ∈ r.skippedBefore,
    skippedBefore + r.photoIds.length + r.skippedAfter = count ∧
    0 ≤ skippedBefore ∧
    r.photoIds = (l.photoIds.drop skippedBefore.toNat).take r.photoIds.length

/-- The count is the one of the stored photos. -/
def Full (l : UserPhotosList) : Prop := ∀ count ∈ l.count, count = l.photoIds.length

/-- A slice leaves nothing that is still to be loaded. -/
def Complete (l : UserPhotosList) : Call → Prop
  | .addSlice photoIds count =>
    photoIds = [] ∨ (0 ≤ count ∧ count ≤ (photoIds.foldl pushFront l.photoIds).length)
  | _ => True

theorem Full.step {l : UserPhotosList} {call : Call} (hl : l.Full) (hcall : l.Complete call) :
    (l.step call).Full := by
  cases call with
  | addNew photoId =>
    simp only [UserPhotosList.step, addNew]
    split
    · exact hl
    · intro count hcount
      obtain ⟨known, hknown, rfl⟩ := Option.map_eq_some_iff.mp hcount
      simp [hl known hknown]
  | addSlice photoIds count =>
    intro stored hstored
    simp only [UserPhotosList.step, addSlice] at hstored ⊢
    split at hstored
    · exact (Option.some.inj hstored).symm
    · next hless =>
      have hempty : photoIds ≠ [] := fun h => hless (Or.inr h)
      have hcount : stored = count := (Option.some.inj hstored).symm
      rcases hcall with h | ⟨hpos, hle⟩
      · exact absurd h hempty
      · have hge := fun h => hless (Or.inl ⟨hpos, h⟩)
        omega
  | removeOne photoId =>
    simp only [UserPhotosList.step, removeOne]
    split
    · next hmem =>
      intro count hcount
      obtain ⟨known, hknown, rfl⟩ := Option.map_eq_some_iff.mp hcount
      have hlength := List.length_erase_add_one hmem
      have hfull := hl known hknown
      simp only
      omega
    · intro count hcount
      cases hcount
  | removeAfter photoId =>
    simp only [UserPhotosList.step, removeAfter]
    split
    · next hmem =>
      intro count hcount
      obtain ⟨known, hknown, rfl⟩ := Option.map_eq_some_iff.mp hcount
      have hposition := List.idxOf_lt_length_of_mem hmem
      have hfull := hl known hknown
      simp only [List.length_take]
      omega
    · intro count hcount
      cases hcount

theorem Full.of_reached {l : UserPhotosList} (h : Reached Complete l) : l.Full := by
  induction h with
  | empty =>
    intro count hcount
    cases hcount
  | step hl hcall ih => exact ih.step hcall

/-- What is skipped on both sides and what is returned are all the stored photos. -/
theorem query_agrees_iff (l : UserPhotosList) (q : UserPhotosQuery) :
    (∀ r ∈ l.query q, l.Agrees r) ↔
      (q.photoId ∈ l.photoIds → ∀ count ∈ l.count, count = l.photoIds.length) := by
  by_cases hmem : q.photoId ∈ l.photoIds
  · have hposition := List.idxOf_lt_length_of_mem hmem
    simp only [query, hmem, if_true, Option.mem_def, Option.some.injEq, forall_eq', Agrees,
      List.length_take, List.length_drop, forall_true_left]
    refine forall_congr' fun count => forall_congr' fun hcount => ?_
    have htoNat : ((l.photoIds.idxOf q.photoId : Int) -
        (min (l.photoIds.idxOf q.photoId) q.limitBefore : Nat)).toNat =
        l.photoIds.idxOf q.photoId - min (l.photoIds.idxOf q.photoId) q.limitBefore := by
      omega
    rw [htoNat]
    constructor
    · rintro ⟨hsum, -, -⟩
      omega
    · intro hfull
      refine ⟨by omega, by omega, ?_⟩
      rw [List.take_eq_take_iff, List.length_drop]
      omega
  · simp only [query, hmem, if_false, false_implies, iff_true]
    split
    · intro r hr count hcount skipped hskipped
      cases hr
      cases hskipped
    · intro r hr
      cases hr

theorem query_counts (l : UserPhotosList) :
    (Reached Complete l → ∀ q, ∀ r ∈ l.query q, l.Agrees r) ∧
    ∀ q, (∀ r ∈ l.query q, l.Agrees r) ↔
      (q.photoId ∈ l.photoIds → ∀ count ∈ l.count, count = l.photoIds.length) :=
  ⟨fun hl q => (query_agrees_iff l q).mpr fun _ => Full.of_reached hl, query_agrees_iff l⟩

theorem query_counts_newPhoto :
    let l := ((({} : UserPhotosList).addSlice [20, 10] 2).addNew 30)
    ∀ q, ∀ r ∈ l.query q, l.Agrees r :=
  (query_counts _).1 (Reached.step
    (Reached.step .empty (show Complete _ (.addSlice [20, 10] 2) from Or.inr (by decide)))
    (show Complete _ (.addNew 30) from trivial))

/-- The newest photo of five is stored: nothing is skipped, and one photo is returned. -/
theorem query_leaves_unloaded_out : ∃ l r, Reached (fun _ _ => True) l ∧
    r ∈ l.query ⟨30, 2, 2⟩ ∧ r.count = some 5 ∧ r.skippedBefore = some 0 ∧ r.photoIds = [30] ∧
    r.skippedAfter = 0 ∧ ¬l.Agrees r := by
  refine ⟨_, _, @Reached.step _ _ (.addSlice [30] 5) .empty trivial, rfl, rfl, rfl, rfl, rfl, ?_⟩
  intro h
  exact absurd (h 5 rfl 0 rfl).1 (by decide)

end UserPhotosList

end TelegramClient
