import Mathlib
import TelegramClient.Mtproto.TryToSend

/-! The words of a container are those of its messages. -/

namespace TelegramClient.Mtproto

theorem addAt_append_left {words : List UInt32} {pos : Nat} (h : pos < words.length)
    (rest : List UInt32) (n : Nat) : addAt (words ++ rest) pos n = addAt words pos n ++ rest := by
  refine List.ext_getElem? fun k => ?_
  simp only [addAt, List.getElem?_modify, List.getElem?_append, List.length_modify]
  by_cases hk : k < words.length
  · rw [if_pos hk, if_pos hk]
  · have hne : pos ≠ k := by omega
    simp [hk, hne]

theorem addAt_append_right (words rest : List UInt32) (pos n : Nat) :
    addAt (words ++ rest) (words.length + pos) n = words ++ addAt rest pos n := by
  refine List.ext_getElem? fun k => ?_
  simp only [addAt, List.getElem?_modify, List.getElem?_append]
  by_cases hk : k < words.length
  · have hne : words.length + pos ≠ k := by omega
    simp [hk, hne]
  · have heq : words.length + pos = k ↔ pos = k - words.length := by omega
    simp only [hk, if_false, heq]

theorem overwrite_append {α : Type} {front gap src rest : List α}
    (h : gap.length = src.length) :
    overwrite (front ++ (gap ++ rest)) front.length src = front ++ (src ++ rest) := by
  rw [overwrite, List.take_left, ← List.append_assoc front gap, List.drop_append_of_le_length,
    List.append_assoc, List.drop_eq_nil_of_le]
  · rfl
  · rw [List.length_append, h]
  · rw [List.length_append, h]

@[simp] theorem addAt_zero (words : List UInt32) (pos : Nat) : addAt words pos 0 = words := by
  refine List.ext_getElem? fun k => ?_
  simp [addAt, List.getElem?_modify]

@[simp] theorem length_addAt (words : List UInt32) (pos n : Nat) :
    (addAt words pos n).length = words.length := by
  rw [addAt, List.length_modify]

@[simp] theorem overwrite_nil {α : Type} (words : List α) (pos : Nat) :
    overwrite words pos [] = words := by
  rw [overwrite, List.append_nil, List.length_nil, Nat.add_zero, List.take_append_drop]

theorem addAt_length (dst payload : List UInt32) (msgId : MsgId) (seqNo : UInt32) (n k : Nat) :
    addAt (dst ++ (idWords msgId ++ ([seqNo, UInt32.ofNat (4 * n)] ++ payload))) (dst.length + 3)
        (4 * k) =
      dst ++ (idWords msgId ++ ([seqNo, UInt32.ofNat (4 * (k + n))] ++ payload)) := by
  rw [addAt_append_right, Nat.mul_add, Nat.add_comm, UInt32.ofNat_add]
  rfl

namespace Session

variable (options : SendOptions) (s : Session) (r : SecureRequestData)

def layerWords : List UInt32 :=
  if !s.inited && r.needsLayer then options.initSerialized else []

/-- The words that tell the server to wait for the request before. -/
def afterWords : List UInt32 :=
  match r.after with
  | none => []
  | some after =>
    if (s.heap after).msgId ≠ 0 ∧ s.haveSent.contains (s.heap after).msgId then
      mtpc_invokeAfterMsg :: idWords (s.heap after).msgId
    else []

variable {options s r} {dst : List UInt32}

theorem wrapInvokeAfter_eq (h : r.Serialized) (hdst : 8 < dst.length) {after : Ref}
    (hafter : r.after = some after) (gap : List UInt32) :
    overwrite (s.wrapInvokeAfter dst r (s.heap after).msgId gap.length) (dst.length + 4) gap =
      addAt dst kMessageLengthPosition (4 * (s.afterWords r).length) ++
        (idWords r.msgId ++ ([r.seqNo, UInt32.ofNat (4 * ((s.afterWords r).length + r.lenInInts))] ++
          (gap ++ (s.afterWords r ++ r.inner)))) := by
  have hgap : ∀ front rest : List UInt32, front.length = dst.length + 4 →
      overwrite (front ++ (List.replicate gap.length 0 ++ rest)) (dst.length + 4) gap =
        front ++ (gap ++ rest) := by
    intro front rest hfront
    rw [← hfront]
    exact overwrite_append List.length_replicate
  have hhead : ∀ front : List UInt32, front.length = dst.length →
      ∀ n : Nat, (front ++ (idWords r.msgId ++ [r.seqNo, UInt32.ofNat n])).length =
        dst.length + 4 := by
    intro front hfront n
    rw [List.length_append, hfront]
    rfl
  rw [wrapInvokeAfter, afterWords, hafter]
  dsimp only
  split
  · rw [if_pos (by rw [kMessageLengthPosition]; omega), h.header_eq, show 12 = 4 * 3 from rfl]
    simp only [List.append_assoc]
    rw [addAt_length, addAt_append_left (by rw [kMessageLengthPosition]; omega)]
    have hg := hgap _ (mtpc_invokeAfterMsg :: (idWords (s.heap after).msgId ++ r.inner))
      (hhead (addAt dst kMessageLengthPosition (4 * 3)) (length_addAt ..) (4 * (3 + r.lenInInts)))
    simp only [List.append_assoc] at hg
    exact hg
  · rw [h.header_eq]
    have hg := hgap _ r.inner (hhead dst rfl (4 * r.lenInInts))
    simp only [List.append_assoc] at hg ⊢
    simpa only [List.length_nil, Nat.mul_zero, addAt_zero, List.nil_append, Nat.zero_add] using hg

/-- A request is put into the container as one message; only `invokeAfterMsg` is
added to the length of the container. -/
theorem wrapRequest_eq (h : r.Serialized) (hdst : 8 < dst.length) :
    s.wrapRequest options (!s.inited) dst r =
      addAt dst kMessageLengthPosition (4 * (s.afterWords r).length) ++
        (r.wrapped (s.layerWords options r ++ s.afterWords r)).encode := by
  rw [wrapRequest, Message.encode, SecureRequestData.wrapped, layerWords]
  simp only [List.length_append, h.length_inner, List.append_assoc]
  cases hafter : r.after with
  | some after =>
    dsimp only
    split
    · rw [wrapInvokeAfter_eq h hdst hafter]
      have hpos : dst.length + 3 = (addAt dst kMessageLengthPosition
          (4 * (s.afterWords r).length)).length + 3 := by rw [length_addAt]
      rw [hpos, addAt_length]
    · have hw := wrapInvokeAfter_eq (s := s) h hdst hafter []
      rw [overwrite_nil, List.length_nil] at hw
      rw [hw]
      simp only [List.nil_append, List.length_nil, Nat.zero_add]
  | none =>
    have hnone : s.afterWords r = [] := by rw [afterWords, hafter]
    rw [hnone]
    dsimp only
    split
    · rw [h.header_eq]
      simp only [List.append_assoc]
      rw [addAt_length]
      simp only [List.length_nil, Nat.mul_zero, addAt_zero, List.nil_append, Nat.zero_add]
    · rw [h.message_eq, Message.encode, SecureRequestData.wrapped]
      simp only [List.length_nil, Nat.mul_zero, addAt_zero, List.nil_append, Nat.zero_add,
        h.length_inner, List.append_assoc]

end Session

end TelegramClient.Mtproto
