import TelegramClient.Data.MergedSlices

/-! The shared media with the last photo of a peer, which may have no message of its own
(`data/data_shared_media.cpp`). -/

namespace TelegramClient.Data

open OrderedSets

abbrev PhotoId := UInt64

inductive SharedMediaType where
  | photo
  | video
  | photoVideo
  | musicFile
  | file
  | voiceFile
  | link
  | chatPhoto
  | roundVoiceFile
  | gif
  | roundFile
  deriving DecidableEq

/-- What stands in the line of `Unexpected`. -/
structure Unexpected where
  text : String

namespace SharedMediaWithLastSlice

/-- `base::variant<FullMsgId, not_null<PhotoData*>>`. -/
inductive Value where
  | message (fullId : FullMsgId)
  | photo (id : PhotoId)
  deriving DecidableEq

inductive UniversalMsgId where
  | message (id : Int)
  | photo (id : PhotoId)

structure Key where
  peerId : PeerId
  migratedPeerId : PeerId
  type : SharedMediaType
  universalId : UniversalMsgId

def viewerKey (key : Key) : SparseIdsMergedSlice.Key where
  peerId := key.peerId
  migratedPeerId := key.migratedPeerId
  universalId :=
    match key.universalId with
    | .message id => id
    | .photo _ => serverMaxMsgId - 1

def endingKey (key : Key) : SparseIdsMergedSlice.Key where
  peerId := key.peerId
  migratedPeerId := key.migratedPeerId
  universalId := serverMaxMsgId - 1

def lastFullMsgId (slice : SparseIdsMergedSlice) : Option FullMsgId :=
  if slice.fullCount = some 0 then some {}
  else if slice.size = 0 ∨ slice.skippedAfter ≠ some 0 then none
  else slice.element (slice.size - 1)

/-- `photoOf` is the id of the photo of a message, zero when it has none. -/
def isLastIsolated (photoOf : FullMsgId → PhotoId) (slice : SparseIdsMergedSlice)
    (ending : Option SparseIdsMergedSlice) (lastPeerPhotoId : Option PhotoId) : Option Bool :=
  match lastPeerPhotoId with
  | none => none
  | some last =>
    if last = 0 then some false
    else (lastFullMsgId (ending.getD slice)).map fun msgId => last != photoOf msgId

end SharedMediaWithLastSlice

open SharedMediaWithLastSlice

/-- The last photo of the peer is kept as it is when the slices come. -/
structure SharedMediaWithLastSlice where
  key : Key
  slice : SparseIdsMergedSlice
  ending : Option SparseIdsMergedSlice := none
  lastPhotoId : Option PhotoId
  isolatedLastPhoto : Option Bool
  reversed : Bool := false

namespace SharedMediaWithLastSlice

def make (photoOf : FullMsgId → PhotoId) (key : Key) (slice : SparseIdsMergedSlice)
    (ending : Option SparseIdsMergedSlice) (lastPeerPhotoId : Option PhotoId) :
    SharedMediaWithLastSlice where
  key := key
  slice := slice
  ending := ending
  lastPhotoId := lastPeerPhotoId
  isolatedLastPhoto :=
    if key.type = .chatPhoto then isLastIsolated photoOf slice ending lastPeerPhotoId
    else some false

def reverse (w : SharedMediaWithLastSlice) : SharedMediaWithLastSlice :=
  { w with reversed := !w.reversed }

def isolatedInSlice (w : SharedMediaWithLastSlice) : Bool := w.slice.skippedAfter != some 0

def lastPhotoSkip (w : SharedMediaWithLastSlice) : Option Int :=
  w.isolatedLastPhoto.map fun isolated => if isolated then 1 else 0

def fullCount (w : SharedMediaWithLastSlice) : Option Int :=
  SparseIdsMergedSlice.add w.slice.fullCount
    (w.isolatedLastPhoto.map fun isolated => if isolated then 1 else 0)

def skippedBeforeImpl (w : SharedMediaWithLastSlice) : Option Int := w.slice.skippedBefore

def skippedAfterImpl (w : SharedMediaWithLastSlice) : Option Int :=
  if w.isolatedInSlice then SparseIdsMergedSlice.add w.slice.skippedAfter w.lastPhotoSkip
  else w.lastPhotoSkip.map fun _ => 0

def skippedBefore (w : SharedMediaWithLastSlice) : Option Int :=
  if w.reversed then w.skippedAfterImpl else w.skippedBeforeImpl

def skippedAfter (w : SharedMediaWithLastSlice) : Option Int :=
  if w.reversed then w.skippedBeforeImpl else w.skippedAfterImpl

def size (w : SharedMediaWithLastSlice) : Nat :=
  w.slice.size + if !w.isolatedInSlice && w.lastPhotoSkip == some 1 then 1 else 0

def indexOfImpl (w : SharedMediaWithLastSlice) : Value → Option Int
  | .message fullId => (w.slice.indexOf fullId).map (↑)
  | .photo id =>
    if w.isolatedInSlice ∨ w.lastPhotoId ≠ some id then none
    else SparseIdsMergedSlice.add (some (w.slice.size - 1 : Int)) w.lastPhotoSkip

def indexOf (w : SharedMediaWithLastSlice) (value : Value) : Except Unexpected (Option Int) :=
  match w.indexOfImpl value with
  | none => .ok none
  | some result =>
    if result < 0 ∨ w.size ≤ result then
      .error ⟨"Result in SharedMediaWithLastSlice::indexOf"⟩
    else .ok (some (if w.reversed then -result + (w.size - 1) else result))

/-- The element at an index, which is less than the size. -/
def element (w : SharedMediaWithLastSlice) (index : Nat) : Option Value :=
  if w.size ≤ index then none
  else
    let index := if w.reversed then w.size - index - 1 else index
    if index < w.slice.size then (w.slice.element index).map .message
    else w.lastPhotoId.map .photo

end SharedMediaWithLastSlice

/-- What is skipped and what is there are all. -/
def SparseIdsMergedSlice.Counted (m : SparseIdsMergedSlice) : Prop :=
  ∀ before ∈ m.skippedBefore, ∀ after ∈ m.skippedAfter, ∀ full ∈ m.fullCount,
    before + m.size + after = full

namespace SharedMediaWithLastSlice

variable {photoOf : FullMsgId → PhotoId} {w : SharedMediaWithLastSlice} {value : Value} {i : Nat}
  {result : Int}

/-- The slices that the viewer may put together: each is a slice of its key, and its counts agree,
but they may be of different moments. -/
structure Combined (photoOf : FullMsgId → PhotoId) (w : SharedMediaWithLastSlice) : Prop where
  made : ∃ reversed, w = { make photoOf w.key w.slice w.ending w.lastPhotoId with reversed }
  slice_key : w.slice.key = viewerKey w.key
  slice_valid : w.slice.Valid
  slice_counted : w.slice.Counted
  ending_some : w.ending.isSome ↔ ∃ id, w.key.universalId = .message id
  ending_key : ∀ ending ∈ w.ending, ending.key = endingKey w.key
  ending_valid : ∀ ending ∈ w.ending, ending.Valid ∧ ending.Counted

/-- Photos have ids that are not zero. -/
structure Safe (w : SharedMediaWithLastSlice) : Prop where
  indexOf_lt : ∀ value, value ≠ .photo 0 →
    ∃ result, w.indexOf value = .ok result ∧ ∀ i ∈ result, 0 ≤ i ∧ i < w.size
  indexOf_element : ∀ i < w.size, ∃ value, w.element i = some value ∧ w.indexOf value = .ok (some i)
  counts : ∀ before ∈ w.skippedBefore, ∀ after ∈ w.skippedAfter, ∀ full ∈ w.fullCount,
    before + w.size + after = full

/-- The last photo is shown after the messages. -/
def lastShown (w : SharedMediaWithLastSlice) : Nat :=
  if !w.isolatedInSlice && w.lastPhotoSkip == some 1 then 1 else 0

/-- The last photo is the one of the last message, and this slice ends before any message. -/
def LostLast (w : SharedMediaWithLastSlice) : Prop :=
  w.slice.size = 0 ∧ w.isolatedInSlice = false ∧ w.isolatedLastPhoto = some false ∧
    ∃ id ≠ 0, w.lastPhotoId = some id

/-- The messages that are not shown have no index of their own. -/
def NoneHidden (w : SharedMediaWithLastSlice) : Prop :=
  w.slice.isolatedInMigrated → w.slice.part.size ≤ w.lastShown

theorem lastShown_le_one (w : SharedMediaWithLastSlice) : w.lastShown ≤ 1 := by
  rw [lastShown]
  split <;> omega

theorem lastShown_eq_one (h : w.lastShown ≠ 0) :
    w.isolatedInSlice = false ∧ w.isolatedLastPhoto = some true := by
  rw [lastShown] at h
  split at h
  · next hshown =>
    simp only [lastPhotoSkip, Bool.and_eq_true, Bool.not_eq_true', beq_iff_eq,
      Option.map_eq_some_iff] at hshown
    obtain ⟨hisolated, isolated, hlast, hone⟩ := hshown
    cases isolated with
    | true => exact ⟨hisolated, hlast⟩
    | false => cases hone
  · exact absurd rfl h

theorem Combined.last_of_isolated (h : w.Combined photoOf) (hlast : w.isolatedLastPhoto = some true) :
    ∃ id, w.lastPhotoId = some id := by
  obtain ⟨reversed, hmade⟩ := h.made
  rw [hmade] at hlast
  simp only [make] at hlast
  split at hlast
  · cases hid : w.lastPhotoId with
    | none =>
      simp only [isLastIsolated, hid] at hlast
      cases hlast
    | some id => exact ⟨id, rfl⟩
  · cases hlast

theorem size_eq : w.size = w.slice.size + w.lastShown := rfl

/-- A value has an index exactly when its place in the slice, or after it, is there. -/
theorem indexOf_eq (h : w.indexOfImpl value = some (i : Int)) (hlt : i < w.size) :
    w.indexOf value = .ok (some (if w.reversed then w.size - 1 - i else i : Nat)) := by
  rw [indexOf, h]
  simp only
  rw [if_neg (by omega)]
  split
  · congr 2
    omega
  · rfl

theorem indexOf_eq_error (h : w.indexOfImpl value = some result)
    (hout : result < 0 ∨ w.size ≤ result) :
    w.indexOf value = .error ⟨"Result in SharedMediaWithLastSlice::indexOf"⟩ := by
  rw [indexOf, h]
  exact if_pos hout

theorem indexOfImpl_photo {id : PhotoId} :
    w.indexOfImpl (.photo id) = some result ↔ w.isolatedInSlice = false ∧ w.lastPhotoId = some id ∧
      ∃ isolated, w.isolatedLastPhoto = some isolated ∧
        result = w.slice.size - 1 + if isolated then 1 else 0 := by
  simp only [indexOfImpl, lastPhotoSkip]
  split
  · next hnone =>
    rcases hnone with hisolated | hlast
    · simp [hisolated]
    · simp [hlast]
  · next hsome =>
    simp only [not_or, Bool.not_eq_true, not_not] at hsome
    cases w.isolatedLastPhoto with
    | none => simp [SparseIdsMergedSlice.add]
    | some isolated => simp [SparseIdsMergedSlice.add, hsome, eq_comm]

theorem Combined.indexOf_lt (h : w.Combined photoOf) (hhidden : w.NoneHidden) (hlost : ¬w.LostLast)
    (hvalue : value ≠ .photo 0) :
    ∃ result, w.indexOf value = .ok result ∧ ∀ i ∈ result, 0 ≤ i ∧ i < w.size := by
  cases himpl : w.indexOfImpl value with
  | none =>
    refine ⟨none, ?_, by simp⟩
    rw [indexOf, himpl]
  | some result =>
    obtain ⟨i, hi, rfl⟩ : ∃ i : Nat, i < w.size ∧ result = i := by
      cases value with
      | message fullId =>
        obtain ⟨i, hindex, hi⟩ := Option.map_eq_some_iff.mp himpl
        refine ⟨i, ?_, hi.symm⟩
        have hlt := (List.getElem?_eq_some_iff.mp
          ((SparseIdsMergedSlice.indexOf_eq_some_iff h.slice_valid).mp hindex)).1
        have hafter : w.slice.after.length = w.slice.part.size := List.length_map _
        rw [List.length_append, hafter] at hlt
        rw [size_eq, SparseIdsMergedSlice.size_eq, SparseIdsMergedSlice.shown, List.length_append]
        split
        · next hisolated =>
          have hle := hhidden hisolated
          simp only [List.length_nil]
          omega
        · omega
      | photo id =>
        obtain ⟨hisolated, hlast, isolated, hphoto, rfl⟩ := indexOfImpl_photo.mp himpl
        cases isolated with
        | true =>
          refine ⟨w.slice.size, ?_, by simp⟩
          simp [size_eq, lastShown, hisolated, lastPhotoSkip, hphoto]
        | false =>
          have hne : w.slice.size ≠ 0 := by
            intro hzero
            refine hlost ⟨hzero, hisolated, hphoto, id, ?_, hlast⟩
            rintro rfl
            exact hvalue rfl
          refine ⟨w.slice.size - 1, ?_, ?_⟩
          · rw [size_eq]
            omega
          · simp only [Bool.false_eq_true, if_false]
            omega
    refine ⟨_, indexOf_eq himpl hi, ?_⟩
    intro j hj
    cases hj
    split <;> omega

theorem Combined.indexOf_element (h : w.Combined photoOf) {i : Nat} (hi : i < w.size) :
    ∃ value, w.element i = some value ∧ w.indexOf value = .ok (some i) := by
  have hback : ∀ {value : Value} {j : Nat}, (if w.reversed then w.size - i - 1 else i) = j →
      w.indexOfImpl value = some (j : Int) → w.indexOf value = .ok (some i) := by
    rintro value j rfl himpl
    rw [indexOf_eq himpl (by split <;> omega)]
    split
    · congr 3
      omega
    · rfl
  rw [element, if_neg (by omega)]
  simp only
  generalize hj : (if w.reversed then w.size - i - 1 else i) = j at hback ⊢
  split
  · next hlt =>
    obtain ⟨fullId, helement, hindex⟩ := SparseIdsMergedSlice.exists_element h.slice_valid hlt
    refine ⟨.message fullId, by rw [helement]; rfl, hback rfl ?_⟩
    rw [indexOfImpl, hindex]
    rfl
  · next hge =>
    have hjlt : j < w.size := by
      rw [← hj]
      split <;> omega
    rw [size_eq] at hjlt
    have hone := lastShown_le_one w
    obtain ⟨hisolated, hlast⟩ := lastShown_eq_one (show w.lastShown ≠ 0 by omega)
    obtain ⟨id, hid⟩ := h.last_of_isolated hlast
    refine ⟨.photo id, by rw [hid]; rfl, hback rfl ?_⟩
    refine indexOfImpl_photo.mpr ⟨hisolated, hid, true, hlast, ?_⟩
    simp only [if_true]
    omega

theorem Combined.counts (h : w.Combined photoOf) {before after full : Int}
    (hbefore : w.skippedBefore = some before) (hafter : w.skippedAfter = some after)
    (hfull : w.fullCount = some full) : before + w.size + after = full := by
  have hboth : ∃ before' after', w.skippedBeforeImpl = some before' ∧
      w.skippedAfterImpl = some after' ∧ before + after = before' + after' := by
    rw [skippedBefore] at hbefore
    rw [skippedAfter] at hafter
    split at hbefore
    · next hreversed =>
      rw [if_pos hreversed] at hafter
      exact ⟨after, before, hafter, hbefore, Int.add_comm _ _⟩
    · next hreversed =>
      rw [if_neg hreversed] at hafter
      exact ⟨before, after, hbefore, hafter, rfl⟩
  obtain ⟨before', after', hbefore', hafter', hsum⟩ := hboth
  have hadd : ∀ {a b : Option Int} {c : Int}, SparseIdsMergedSlice.add a b = some c →
      ∃ x y, a = some x ∧ b = some y ∧ c = x + y := by
    intro a b c hc
    cases a <;> cases b <;> simp_all [SparseIdsMergedSlice.add]
  obtain ⟨sliceFull, one, hsliceFull, hone, rfl⟩ := hadd hfull
  obtain ⟨isolated, hisolatedLast, rfl⟩ := Option.map_eq_some_iff.mp hone
  rw [skippedAfterImpl, lastPhotoSkip, hisolatedLast] at hafter'
  rw [size_eq, lastShown, lastPhotoSkip, hisolatedLast]
  split at hafter'
  · next hisolated =>
    obtain ⟨sliceAfter, skip, hsliceAfter, hskip, rfl⟩ := hadd hafter'
    have hcounted := h.slice_counted before' hbefore' sliceAfter hsliceAfter sliceFull hsliceFull
    cases hskip
    rw [if_neg (by simp [hisolated])]
    dsimp only at hsum
    omega
  · next hisolated =>
    have hzero : w.slice.skippedAfter = some 0 := by simpa [isolatedInSlice] using hisolated
    have hcounted := h.slice_counted before' hbefore' 0 hzero sliceFull hsliceFull
    cases hafter'
    dsimp only at hsum
    cases isolated <;> simp [hisolated] <;> omega

theorem Combined.safe (h : w.Combined photoOf) (hhidden : w.NoneHidden) (hlost : ¬w.LostLast) :
    w.Safe where
  indexOf_lt _ hvalue := h.indexOf_lt hhidden hlost hvalue
  indexOf_element _ hi := h.indexOf_element hi
  counts _ hbefore _ hafter _ hfull := h.counts hbefore hafter hfull

theorem Safe.not_lost (h : w.Safe) : ¬w.LostLast := by
  rintro ⟨hzero, hisolated, hphoto, id, hne, hlast⟩
  obtain ⟨result, hok, -⟩ := h.indexOf_lt (.photo id) (by simpa using hne)
  have himpl : w.indexOfImpl (.photo id) = some (-1) :=
    indexOfImpl_photo.mpr ⟨hisolated, hlast, false, hphoto, by simp [hzero]⟩
  rw [indexOf_eq_error himpl (Or.inl (by decide))] at hok
  cases hok

theorem Safe.noneHidden (h : w.Safe) (hvalid : w.slice.Valid) : w.NoneHidden := by
  intro hisolated
  by_contra hlt
  have hafter : w.slice.after.length = w.slice.part.size := List.length_map _
  have hsize : w.slice.size = w.slice.before.length := by
    rw [SparseIdsMergedSlice.size_eq, SparseIdsMergedSlice.shown, if_pos hisolated, List.append_nil]
  have hget : (w.slice.before ++ w.slice.after)[w.size]? =
      some (w.slice.after.get ⟨w.lastShown, by omega⟩) := by
    rw [size_eq, hsize, List.getElem?_append_right (by omega), Nat.add_sub_cancel_left]
    exact List.getElem?_eq_getElem _
  have hindex := (SparseIdsMergedSlice.indexOf_eq_some_iff hvalid).mpr hget
  obtain ⟨result, hok, -⟩ := h.indexOf_lt (.message (w.slice.after.get ⟨w.lastShown, by omega⟩)) (by simp)
  have himpl : w.indexOfImpl (.message (w.slice.after.get ⟨w.lastShown, by omega⟩)) = some (w.size : Int) := by
    rw [indexOfImpl, hindex]
    rfl
  rw [indexOf_eq_error himpl (Or.inr le_rfl)] at hok
  cases hok

theorem safe_iff (photoOf : FullMsgId → PhotoId) (w : SharedMediaWithLastSlice)
    (h : w.Combined photoOf) : w.Safe ↔ w.NoneHidden ∧ ¬w.LostLast :=
  ⟨fun hsafe => ⟨hsafe.noneHidden h.slice_valid, hsafe.not_lost⟩,
    fun ⟨hhidden, hlost⟩ => h.safe hhidden hlost⟩

/-- All the messages of a user are in the slice. -/
def whole (ids : List Int) : SparseIdsMergedSlice where
  key := ⟨peerFromUser 9, 0, 5⟩
  part := ⟨.ofList ids, some (OrderedSet.ofList ids).size, some 0, some 0⟩

/-- The last photo of a user, and the messages of two moments. -/
def twoMoments (ids idsOfEnding : List Int) : SharedMediaWithLastSlice :=
  make (fun fullId => fullId.msg.toNat.toUInt64) ⟨peerFromUser 9, 0, .chatPhoto, .message 5⟩
    (whole ids) (some { whole idsOfEnding with key := ⟨peerFromUser 9, 0, serverMaxMsgId - 1⟩ })
    (some 5)

theorem combined_twoMoments (ids idsOfEnding : List Int) :
    (twoMoments ids idsOfEnding).Combined fun fullId => fullId.msg.toNat.toUInt64 where
  made := ⟨false, rfl⟩
  slice_key := rfl
  slice_valid := ⟨Or.inl rfl, ⟨9, Or.inl rfl⟩, fun h => by cases h⟩
  slice_counted := by
    rintro _ ⟨⟩ _ ⟨⟩ _ ⟨⟩
    simp [SparseIdsMergedSlice.size, SparseIdsMergedSlice.isolatedInPart,
      SparseIdsMergedSlice.isolatedInMigrated, twoMoments, make, whole, isServerMsgId,
      serverMaxMsgId, SparseIdsSlice.size]
  ending_some := ⟨fun _ => ⟨5, rfl⟩, fun _ => rfl⟩
  ending_key := by
    rintro _ ⟨⟩
    rfl
  ending_valid := by
    rintro _ ⟨⟩
    refine ⟨⟨Or.inl rfl, ⟨9, Or.inl rfl⟩, fun h => by cases h⟩, ?_⟩
    rintro _ ⟨⟩ _ ⟨⟩ _ ⟨⟩
    simp [SparseIdsMergedSlice.size, SparseIdsMergedSlice.isolatedInPart,
      SparseIdsMergedSlice.isolatedInMigrated, whole, isServerMsgId,
      serverMaxMsgId, SparseIdsSlice.size]

theorem safe_iff_sameMoment :
    (twoMoments [5] [5]).Safe ↔ (twoMoments [5] [5]).NoneHidden ∧ ¬(twoMoments [5] [5]).LostLast :=
  safe_iff _ _ (combined_twoMoments [5] [5])

/-- The viewer has seen the last message removed, and the ending has not. -/
theorem last_photo_before_first_index :
    (twoMoments [] [5]).Combined (fun fullId => fullId.msg.toNat.toUInt64) ∧
    (twoMoments [] [5]).indexOfImpl (.photo 5) = some (-1) ∧ ¬(twoMoments [] [5]).Safe := by
  refine ⟨combined_twoMoments [] [5], by decide, fun h => ?_⟩
  obtain ⟨result, hok, -⟩ := h.indexOf_lt (.photo 5) (by decide)
  have herror : (twoMoments [] [5]).indexOf (.photo 5) =
      .error ⟨"Result in SharedMediaWithLastSlice::indexOf"⟩ := by rfl
  rw [herror] at hok
  cases hok

end SharedMediaWithLastSlice

end TelegramClient.Data
