import Mathlib
import TelegramClient.Mtproto.SecureRequest

/-! The messages of a container: an id, a number and a counted payload each,
one after another. -/

namespace TelegramClient.Mtproto

def mtpc_msg_container : UInt32 := 0x73f1f8dc

def mtpc_invokeAfterMsg : UInt32 := 0xcb9f372d

def mtpc_ping : UInt32 := 0x7abe77ec

def mtpc_ping_delay_disconnect : UInt32 := 0xf3427b8c

def mtpc_vector : UInt32 := 0x1cb5c415

def mtpc_msgs_ack : UInt32 := 0x62d6b459

def mtpc_bad_msg_notification : UInt32 := 0xa7eff811

def mtpc_msgs_state_req : UInt32 := 0xda69fb52

def mtpc_msgs_state_info : UInt32 := 0x04deb57d

def mtpc_msgs_all_info : UInt32 := 0x8cc0d131

def mtpc_msg_detailed_info : UInt32 := 0x276d3ec6

def mtpc_msg_new_detailed_info : UInt32 := 0x809db6df

def mtpc_msg_resend_req : UInt32 := 0x7d861a08

def mtpc_http_wait : UInt32 := 0x9299359f

/-! ### A message -/

structure Message where
  msgId : MsgId
  seqNo : UInt32
  payload : List UInt32
  deriving DecidableEq, Repr

def Message.encode (m : Message) : List UInt32 :=
  idWords m.msgId ++ [m.seqNo, UInt32.ofNat (4 * m.payload.length)] ++ m.payload

/-- Reads messages as a received container is read: a length counts whole words, at
least one, and is no negative number. -/
def readMessages : Nat → List UInt32 → Option (List Message × List UInt32)
  | 0, words => some ([], words)
  | count + 1, low :: high :: seqNo :: bytes :: words =>
    if bytes.toNat % 4 ≠ 0 ∨ bytes.toNat < 4 ∨ 2 ^ 31 ≤ bytes.toNat ∨
        words.length < bytes.toNat / 4 then none
    else
      (readMessages count (words.drop (bytes.toNat / 4))).map fun (messages, rest) =>
        ({ msgId := idOfWords low high, seqNo, payload := words.take (bytes.toNat / 4) } ::
          messages, rest)
  | _ + 1, _ => none

/-- What a length word of 31 bits can tell. -/
def Message.Fits (m : Message) : Prop := 0 < m.payload.length ∧ 4 * m.payload.length < 2 ^ 31

@[simp] theorem Message.length_encode (m : Message) : m.encode.length = 4 + m.payload.length := by
  simp only [encode, List.length_append, length_idWords, List.length_cons, List.length_nil]

theorem readMessages_encode (messages : List Message) (h : ∀ m ∈ messages, m.Fits)
    (rest : List UInt32) :
    readMessages messages.length (messages.flatMap Message.encode ++ rest) =
      some (messages, rest) := by
  induction messages with
  | nil => rfl
  | cons m messages ih =>
    obtain ⟨⟨hpos, hlt⟩, htail⟩ := List.forall_mem_cons.mp h
    have hbytes : (UInt32.ofNat (4 * m.payload.length)).toNat = 4 * m.payload.length := by
      rw [UInt32.toNat_ofNat']
      omega
    have hwords : (UInt32.ofNat (4 * m.payload.length)).toNat / 4 = m.payload.length := by
      rw [hbytes]
      omega
    rw [List.flatMap_cons, Message.encode, idWords]
    simp only [List.cons_append, List.nil_append, List.append_assoc, List.length_cons]
    rw [readMessages, if_neg, hwords, List.drop_left, List.take_left, ih htail, idOfWords_idWords]
    · rfl
    · rw [hbytes, List.length_append]
      omega

/-! ### The message of a request -/

/-- Copies of words with a number added to one of them. -/
def addAt (words : List UInt32) (pos : Nat) (n : Nat) : List UInt32 :=
  words.modify pos (· + UInt32.ofNat n)

namespace SecureRequestData

variable (r : SecureRequestData)

def innerLength : UInt32 :=
  if r.size ≤ kMessageBodyPosition then 0 else r.words.getD kMessageLengthPosition 0

def lenInInts : Nat := r.innerLength.toNat / 4

def messageSize : Nat :=
  if r.size ≤ kMessageBodyPosition then 0 else 4 + r.lenInInts

def typeId : UInt32 := r.words.getD kMessageBodyPosition 0

def isStateRequest : Bool := kMessageBodyPosition < r.size && r.typeId == mtpc_msgs_state_req

def needAck : Bool :=
  kMessageBodyPosition < r.size &&
    r.typeId ∉ [mtpc_msg_container, mtpc_msgs_ack, mtpc_http_wait, mtpc_bad_msg_notification,
      mtpc_msgs_all_info, mtpc_msgs_state_info, mtpc_msg_detailed_info,
      mtpc_msg_new_detailed_info]

/-- The id, the number and the length, as they lie in front of the body. -/
def header : List UInt32 := (r.words.drop kMessageIdPosition).take 4

/-- The words of the request itself; padding may follow them. -/
def inner : List UInt32 := r.body.take r.lenInInts

def message : List UInt32 := (r.words.drop kMessageIdPosition).take r.messageSize

end SecureRequestData

/-- An empty request that will hold a number of words. -/
def prepare (size : Nat) : List UInt32 := List.replicate 7 0 ++ [UInt32.ofNat (4 * size)]

def serialize (body : List UInt32) : SecureRequestData := { words := prepare body.length ++ body }

/-- A length that counts the words of the request, which are there. -/
structure SecureRequestData.Serialized (r : SecureRequestData) : Prop where
  length : r.innerLength.toNat = 4 * r.lenInInts
  pos : 0 < r.lenInInts
  le : kMessageBodyPosition + r.lenInInts ≤ r.size

variable {r : SecureRequestData}

theorem SecureRequestData.Serialized.size (h : r.Serialized) : kMessageBodyPosition < r.size := by
  have hpos := h.pos
  have hle := h.le
  omega

/-- The message of a request, with words put in front of its body. -/
def SecureRequestData.wrapped (r : SecureRequestData) (wrap : List UInt32) : Message where
  msgId := r.msgId
  seqNo := r.seqNo
  payload := wrap ++ r.inner

theorem SecureRequestData.Serialized.words_eq (h : r.Serialized) :
    r.words.drop kMessageIdPosition =
      idWords r.msgId ++ [r.seqNo, UInt32.ofNat (4 * r.lenInInts)] ++ r.body := by
  have hsize : 8 < r.words.length := h.size
  have hlength : r.words[7] = UInt32.ofNat (4 * r.lenInInts) := by
    rw [← h.length, UInt32.ofNat_toNat, SecureRequestData.innerLength,
      if_neg (Nat.not_le.mpr h.size), kMessageLengthPosition, List.getD_eq_getElem _ _ (by omega)]
  rw [SecureRequestData.msgId, SecureRequestData.seqNo, SecureRequestData.body, idWords_idOfWords,
    kMessageIdPosition, kSeqNoPosition, kMessageBodyPosition, ← hlength,
    List.getD_eq_getElem _ _ (by omega), List.getD_eq_getElem _ _ (by omega),
    List.getD_eq_getElem _ _ (by omega), List.drop_eq_getElem_cons (by omega),
    List.drop_eq_getElem_cons (by omega), List.drop_eq_getElem_cons (by omega),
    List.drop_eq_getElem_cons (by omega)]
  rfl

theorem SecureRequestData.Serialized.header_eq (h : r.Serialized) :
    r.header = idWords r.msgId ++ [r.seqNo, UInt32.ofNat (4 * r.lenInInts)] := by
  rw [SecureRequestData.header, h.words_eq]
  rfl

theorem SecureRequestData.Serialized.length_inner (h : r.Serialized) :
    r.inner.length = r.lenInInts := by
  have hle := h.le
  rw [SecureRequestData.inner, SecureRequestData.body, List.length_take, List.length_drop]
  rw [SecureRequestData.size] at hle
  omega

theorem SecureRequestData.Serialized.message_eq (h : r.Serialized) :
    r.message = (r.wrapped []).encode := by
  rw [SecureRequestData.message, SecureRequestData.messageSize, if_neg (Nat.not_le.mpr h.size),
    h.words_eq, Message.encode, SecureRequestData.wrapped]
  simp only [List.nil_append, h.length_inner]
  have htake : ∀ (head body : List UInt32) (n : Nat), head.length = 4 →
      (head ++ body).take (4 + n) = head ++ body.take n := by
    intro head body n hhead
    rw [← hhead, List.take_length_add_append]
  exact htake _ _ _ rfl

end TelegramClient.Mtproto
