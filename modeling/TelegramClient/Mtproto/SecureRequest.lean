import Mathlib

/-! Requests as the session keeps them: a buffer of words with the salt, the
session id, the message id, the sequence number and the length in front of the
body. -/

namespace TelegramClient.Mtproto

abbrev MsgId := UInt64

/-- Positive for the requests of the application. -/
abbrev RequestId := Int32

/-- Where a request lies that several maps may share. -/
abbrev Ref := Nat

def kMessageBodyPosition : Nat := 8

def kMessageIdPosition : Nat := 4

def kSeqNoPosition : Nat := 6

def kMessageLengthPosition : Nat := 7

structure SecureRequestData where
  words : List UInt32 := []
  msDate : Int := 0
  requestId : RequestId := 0
  after : Option Ref := none
  needsLayer : Bool := false
  deriving DecidableEq, Repr

/-! ### Ids as pairs of words -/

def idOfWords (low high : UInt32) : MsgId := UInt64.ofNat (low.toNat + high.toNat * 2 ^ 32)

def idWords (id : MsgId) : List UInt32 :=
  [UInt32.ofNat id.toNat, UInt32.ofNat (id.toNat / 2 ^ 32)]

@[simp] theorem length_idWords (id : MsgId) : (idWords id).length = 2 := rfl

theorem idOfWords_idWords (id : MsgId) :
    idOfWords (UInt32.ofNat id.toNat) (UInt32.ofNat (id.toNat / 2 ^ 32)) = id := by
  have hid := id.toNat_lt
  have hsum : (UInt32.ofNat id.toNat).toNat + (UInt32.ofNat (id.toNat / 2 ^ 32)).toNat * 2 ^ 32 =
      id.toNat := by
    rw [UInt32.toNat_ofNat', UInt32.toNat_ofNat']
    omega
  rw [idOfWords, hsum, UInt64.ofNat_toNat]

theorem idWords_idOfWords (low high : UInt32) : idWords (idOfWords low high) = [low, high] := by
  have hlow := low.toNat_lt
  have hhigh := high.toNat_lt
  have hsum : (idOfWords low high).toNat = low.toNat + high.toNat * 2 ^ 32 := by
    rw [idOfWords, UInt64.toNat_ofNat']
    omega
  have hdiv : (low.toNat + high.toNat * 2 ^ 32) / 2 ^ 32 = high.toNat := by omega
  rw [idWords, hsum, hdiv, UInt32.ofNat_toNat]
  congr 1
  rw [← UInt32.toNat_inj, UInt32.toNat_ofNat']
  omega

/-- The ids written one after another; an odd last word is none. -/
def idsOfWords : List UInt32 → List MsgId
  | low :: high :: words => idOfWords low high :: idsOfWords words
  | _ => []

theorem idsOfWords_idWords_append (id : MsgId) (words : List UInt32) :
    idsOfWords (idWords id ++ words) = id :: idsOfWords words := by
  rw [idWords, List.cons_append, List.cons_append, List.nil_append, idsOfWords,
    idOfWords_idWords]

/-- Every id replaced in its place. -/
def mapIds (f : MsgId → MsgId) : List UInt32 → List UInt32
  | low :: high :: words => idWords (f (idOfWords low high)) ++ mapIds f words
  | words => words

theorem idsOfWords_mapIds (f : MsgId → MsgId) (words : List UInt32) :
    idsOfWords (mapIds f words) = (idsOfWords words).map f := by
  fun_induction mapIds f words with
  | case1 low high words ih =>
    rw [idsOfWords_idWords_append, ih]
    rfl
  | case2 words h =>
    match words, h with
    | [], _ => rfl
    | [w], _ => rfl
    | low :: high :: rest, h => exact absurd rfl (h low high rest)

theorem length_mapIds (f : MsgId → MsgId) (words : List UInt32) :
    (mapIds f words).length = words.length := by
  fun_induction mapIds f words with
  | case1 low high words ih =>
    rw [List.length_append, ih, length_idWords, List.length_cons, List.length_cons]
    omega
  | case2 words h => rfl

/-! ### The fields of a request -/

/-- Writes words over those at a position, as a copy of memory does. -/
def overwrite {α : Type} (dst : List α) (pos : Nat) (src : List α) : List α :=
  dst.take pos ++ src ++ dst.drop (pos + src.length)

theorem getElem?_overwrite {α : Type} {dst src : List α} {pos : Nat}
    (h : pos + src.length ≤ dst.length) (k : Nat) :
    (overwrite dst pos src)[k]? =
      if pos ≤ k ∧ k < pos + src.length then src[k - pos]? else dst[k]? := by
  have htake : (dst.take pos).length = pos := by rw [List.length_take]; omega
  rw [overwrite, List.append_assoc]
  by_cases hlo : k < pos
  · rw [List.getElem?_append_left (by omega), List.getElem?_take_of_lt hlo, if_neg (by omega)]
  rw [List.getElem?_append_right (by omega), htake]
  by_cases hhi : k < pos + src.length
  · rw [List.getElem?_append_left (by omega), if_pos (by omega)]
  · rw [List.getElem?_append_right (by omega), List.getElem?_drop, if_neg (by omega)]
    congr 1
    omega

theorem length_overwrite {α : Type} {dst src : List α} {pos : Nat}
    (h : pos + src.length ≤ dst.length) : (overwrite dst pos src).length = dst.length := by
  simp only [overwrite, List.length_append, List.length_take, List.length_drop]
  omega

namespace SecureRequestData

variable (r : SecureRequestData)

def size : Nat := r.words.length

def msgId : MsgId := idOfWords (r.words.getD kMessageIdPosition 0)
  (r.words.getD (kMessageIdPosition + 1) 0)

def setMsgId (msgId : MsgId) : SecureRequestData :=
  { r with words := overwrite r.words kMessageIdPosition (idWords msgId) }

def seqNo : UInt32 := r.words.getD kSeqNoPosition 0

def setSeqNo (seqNo : UInt32) : SecureRequestData :=
  { r with words := r.words.set kSeqNoPosition seqNo }

/-- The words behind the header. -/
def body : List UInt32 := r.words.drop kMessageBodyPosition

/-- The ids of the messages sent in a container. -/
def sentIds : List MsgId := idsOfWords r.body

def mapSentIds (f : MsgId → MsgId) : SecureRequestData :=
  { r with words := r.words.take kMessageBodyPosition ++ mapIds f r.body }

def isSentContainer : Bool :=
  kMessageBodyPosition < r.size && r.msDate == 0 && r.seqNo == 0

variable {r}

theorem getElem?_setMsgId (h : kMessageBodyPosition < r.size) (msgId : MsgId) (k : Nat) :
    (r.setMsgId msgId).words[k]? =
      if 4 ≤ k ∧ k < 6 then (idWords msgId)[k - 4]? else r.words[k]? := by
  have hlen : 8 < r.words.length := h
  exact getElem?_overwrite (by rw [length_idWords, kMessageIdPosition]; omega) k

theorem msgId_setMsgId (h : kMessageBodyPosition < r.size) (msgId : MsgId) :
    (r.setMsgId msgId).msgId = msgId := by
  simp only [SecureRequestData.msgId, List.getD_eq_getElem?_getD, getElem?_setMsgId h]
  exact idOfWords_idWords msgId

theorem size_setMsgId (h : kMessageBodyPosition < r.size) (msgId : MsgId) :
    (r.setMsgId msgId).size = r.size := by
  have hlen : 8 < r.words.length := h
  exact length_overwrite (by rw [length_idWords, kMessageIdPosition]; omega)

theorem seqNo_setMsgId (h : kMessageBodyPosition < r.size) (msgId : MsgId) :
    (r.setMsgId msgId).seqNo = r.seqNo := by
  simp only [seqNo, List.getD_eq_getElem?_getD, getElem?_setMsgId h]
  rfl

theorem body_setMsgId (h : kMessageBodyPosition < r.size) (msgId : MsgId) :
    (r.setMsgId msgId).body = r.body := by
  refine List.ext_getElem? fun k => ?_
  rw [body, body, List.getElem?_drop, List.getElem?_drop, getElem?_setMsgId h, if_neg]
  rw [kMessageBodyPosition]
  omega

theorem getElem?_setSeqNo {k : Nat} (hk : k ≠ kSeqNoPosition) (seqNo : UInt32) :
    (r.setSeqNo seqNo).words[k]? = r.words[k]? :=
  List.getElem?_set_ne (Ne.symm hk)

theorem msgId_setSeqNo (seqNo : UInt32) : (r.setSeqNo seqNo).msgId = r.msgId := by
  simp only [SecureRequestData.msgId, List.getD_eq_getElem?_getD]
  rw [getElem?_setSeqNo (by decide), getElem?_setSeqNo (by decide)]

theorem size_setSeqNo (seqNo : UInt32) : (r.setSeqNo seqNo).size = r.size :=
  List.length_set

theorem seqNo_setSeqNo (h : kMessageBodyPosition < r.size) (seqNo : UInt32) :
    (r.setSeqNo seqNo).seqNo = seqNo := by
  have hlen : 8 < r.words.length := h
  simp only [SecureRequestData.seqNo, List.getD_eq_getElem?_getD, setSeqNo]
  rw [List.getElem?_set_self (by rw [kSeqNoPosition]; omega), Option.getD_some]

theorem body_setSeqNo (seqNo : UInt32) : (r.setSeqNo seqNo).body = r.body := by
  refine List.ext_getElem? fun k => ?_
  rw [body, body, List.getElem?_drop, List.getElem?_drop, getElem?_setSeqNo]
  rw [kMessageBodyPosition, kSeqNoPosition]
  omega

/-- The id and the number written, the rest of the request as it was. -/
def identify (r : SecureRequestData) (msgId : MsgId) (seqNo : UInt32) : SecureRequestData :=
  (r.setMsgId msgId).setSeqNo seqNo

theorem setSeqNo_self (h : kMessageBodyPosition < r.size) : r.setSeqNo r.seqNo = r := by
  have hlen : 8 < r.words.length := h
  have hwords : r.words.set kSeqNoPosition r.seqNo = r.words := by
    rw [seqNo, kSeqNoPosition, List.getD_eq_getElem _ _ (by omega), List.set_getElem_self]
  rw [setSeqNo, hwords]

theorem setMsgId_self (h : kMessageBodyPosition < r.size) : r.setMsgId r.msgId = r := by
  have hlen : 8 < r.words.length := h
  have hwords : overwrite r.words kMessageIdPosition (idWords r.msgId) = r.words := by
    refine List.ext_getElem? fun k => (getElem?_setMsgId h r.msgId k).trans ?_
    split
    · next hrange =>
      rw [SecureRequestData.msgId, idWords_idOfWords, kMessageIdPosition,
        List.getD_eq_getElem _ _ (by omega), List.getD_eq_getElem _ _ (by omega)]
      obtain rfl | rfl : k = 4 ∨ k = 5 := by omega
      · exact (List.getElem?_eq_getElem (by omega)).symm
      · exact (List.getElem?_eq_getElem (by omega)).symm
    · rfl
  rw [setMsgId, hwords]

theorem setMsgId_eq_identify (h : kMessageBodyPosition < r.size) (msgId : MsgId) :
    r.setMsgId msgId = r.identify msgId r.seqNo := by
  have hsize : kMessageBodyPosition < (r.setMsgId msgId).size := by
    rw [size_setMsgId h]
    exact h
  rw [identify, ← seqNo_setMsgId h msgId, setSeqNo_self hsize]

theorem eq_identify (h : kMessageBodyPosition < r.size) : r = r.identify r.msgId r.seqNo := by
  rw [← setMsgId_eq_identify h, setMsgId_self h]

theorem getElem?_mapSentIds {k : Nat} (hk : k < kMessageBodyPosition) (f : MsgId → MsgId) :
    (r.mapSentIds f).words[k]? = r.words[k]? := by
  rw [mapSentIds]
  by_cases hlen : k < r.words.length
  · rw [List.getElem?_append_left (by rw [List.length_take]; omega), List.getElem?_take_of_lt hk]
  · have hbody : r.body = [] := List.drop_eq_nil_of_le (by omega)
    rw [hbody, mapIds, List.append_nil, List.getElem?_take_of_lt hk]
    exact fun low high words h => nomatch h

theorem msgId_mapSentIds (f : MsgId → MsgId) : (r.mapSentIds f).msgId = r.msgId := by
  simp only [SecureRequestData.msgId, List.getD_eq_getElem?_getD]
  rw [getElem?_mapSentIds (by decide), getElem?_mapSentIds (by decide)]

theorem seqNo_mapSentIds (f : MsgId → MsgId) : (r.mapSentIds f).seqNo = r.seqNo := by
  simp only [seqNo, List.getD_eq_getElem?_getD]
  rw [getElem?_mapSentIds (by decide)]

theorem sentIds_mapSentIds (h : kMessageBodyPosition < r.size) (f : MsgId → MsgId) :
    (r.mapSentIds f).sentIds = r.sentIds.map f := by
  have hlen : 8 < r.words.length := h
  rw [sentIds, sentIds, ← idsOfWords_mapIds, body, mapSentIds, List.drop_left']
  rw [List.length_take, kMessageBodyPosition]
  omega

/-- A request that waits for its response: it is dated or its number is odd. -/
def IsRequest (r : SecureRequestData) : Prop :=
  kMessageBodyPosition < r.size ∧ (r.msDate ≠ 0 ∨ r.seqNo.toNat % 2 = 1)

theorem isSentContainer_iff : r.isSentContainer ↔
    kMessageBodyPosition < r.size ∧ r.msDate = 0 ∧ r.seqNo = 0 := by
  simp only [isSentContainer, Bool.and_eq_true, decide_eq_true_eq, beq_iff_eq, and_assoc]

theorem IsRequest.not_container (h : r.IsRequest) : r.isSentContainer = false := by
  rw [← Bool.not_eq_true, isSentContainer_iff]
  rintro ⟨-, hdate, hseq⟩
  rcases h.2 with hne | hodd
  · exact hne hdate
  · rw [hseq] at hodd
    exact absurd hodd (by decide)

theorem IsRequest.setMsgId (h : r.IsRequest) (msgId : MsgId) : (r.setMsgId msgId).IsRequest := by
  refine ⟨?_, ?_⟩
  · rw [size_setMsgId h.1]
    exact h.1
  · rw [seqNo_setMsgId h.1]
    exact h.2

theorem IsRequest.setSeqNo (h : r.IsRequest) {seqNo : UInt32}
    (hodd : r.seqNo.toNat % 2 = 1 → seqNo.toNat % 2 = 1) : (r.setSeqNo seqNo).IsRequest := by
  refine ⟨?_, h.2.imp id fun hr => ?_⟩
  · rw [size_setSeqNo]
    exact h.1
  · rw [seqNo_setSeqNo h.1]
    exact hodd hr

theorem isSentContainer_setMsgId (r : SecureRequestData) (msgId : MsgId) :
    (r.setMsgId msgId).isSentContainer = r.isSentContainer := by
  by_cases h : kMessageBodyPosition < r.size
  · rw [isSentContainer, size_setMsgId h, seqNo_setMsgId h]
    rfl
  · have hsize : ¬kMessageBodyPosition < (r.setMsgId msgId).size := by
      have hlen : ¬8 < r.words.length := h
      simp only [size, setMsgId, overwrite, List.length_append, List.length_take, List.length_drop,
        length_idWords, kMessageIdPosition, kMessageBodyPosition]
      omega
    simp only [isSentContainer, h, hsize, decide_false, Bool.false_and]

theorem size_mapSentIds (f : MsgId → MsgId) : (r.mapSentIds f).size = r.size := by
  simp only [size, mapSentIds, body, List.length_append, length_mapIds, List.length_take,
    List.length_drop]
  omega

theorem isSentContainer_mapSentIds (f : MsgId → MsgId) :
    (r.mapSentIds f).isSentContainer = r.isSentContainer := by
  rw [isSentContainer, size_mapSentIds, seqNo_mapSentIds]
  rfl

end SecureRequestData

end TelegramClient.Mtproto
