import Mathlib
import TelegramClient.Mtproto.ContainerRun

/-! A container is read back by its own words. -/

namespace TelegramClient.Mtproto

/-- Reads a container by its type, its count and its length, which reaches to the end
of the buffer as the messages do. -/
def readContainer (r : SecureRequestData) : Option (List Message) :=
  match r.body with
  | typeId :: count :: words =>
    if typeId = mtpc_msg_container ∧ r.innerLength.toNat = 4 * (words.length + 2) then
      match readMessages count.toNat words with
      | some (messages, []) => some messages
      | _ => none
    else none
  | _ => none

theorem readContainer_encode {r : SecureRequestData} {messages : List Message} {count : UInt32}
    (hbody : r.body = mtpc_msg_container :: count :: messages.flatMap Message.encode)
    (hcount : count.toNat = messages.length) (hfits : ∀ m ∈ messages, m.Fits)
    (hlength : r.innerLength.toNat = 4 * ((messages.flatMap Message.encode).length + 2)) :
    readContainer r = some messages := by
  have hread := readMessages_encode messages hfits []
  rw [List.append_nil] at hread
  rw [readContainer, hbody]
  dsimp only
  rw [if_pos ⟨rfl, hlength⟩, hcount, hread]

namespace Session

variable {options : SendOptions} {clock : Nat → MsgId} {s : Session}

theorem words_container (e : Extras) (hnodup : (s.placeOrder e).Nodup)
    (hready : ∀ ref ∈ s.placeOrder e, Ready clock (s.beginContainer options clock e) ref) :
    (s.placeAll options clock e).words = List.replicate 7 0 ++
      (UInt32.ofNat (4 * (s.containerSize e options.initSerialized.length +
          ((s.containerPlaced options clock e).map Placed.grown).sum)) ::
        mtpc_msg_container :: UInt32.ofNat (s.toSendRefs.length + e.count) ::
        (s.containerPlaced options clock e).flatMap (·.message.encode)) := by
  obtain ⟨hrun, -, -⟩ := placements_container e hnodup hready
  rw [hrun.words (by simp [beginContainer, prepare]), Nat.mul_add, UInt32.ofNat_add]
  rfl

/-- What is done with a container that was built. -/
structure Finished (options : SendOptions) (b : Building) (count : Nat) (sent : Sent) : Prop where
  toSendRequest : ∃ seqNo, sent.toSendRequest =
    SecureRequestData.identify { words := b.words } b.bigMsgId seqNo
  contMsgId : sent.contMsgId = b.bigMsgId
  haveSentArr : sent.haveSentArr = b.haveSentArr
  heap : ∀ ref ≠ options.fresh + 5, sent.s.heap ref = b.s.heap ref
  wrap : sent.s.heap (options.fresh + 5) = haveSentIdsWrap b.haveSentArr count b.bigMsgId
  haveSent : sent.s.haveSent = b.s.haveSent.insert b.bigMsgId (options.fresh + 5)
  wereAcked : sent.s.wereAcked = b.s.wereAcked
  toResend : sent.s.toResend = b.s.toResend
  toSend : sent.s.toSend = ∅
  drawn : sent.s.drawn = b.s.drawn

theorem finished (b : Building) (count : Nat) {rest : List UInt32}
    (hwords : b.words = List.replicate 7 0 ++ rest) (hrest : 1 < rest.length) :
    Finished options b count (finishContainer options b count) := by
  have hid : SecureRequestData.msgId { words := b.words } = 0 := by
    have hlow : (List.replicate 7 0 ++ rest).getD kMessageIdPosition 0 = 0 := rfl
    have hhigh : (List.replicate 7 0 ++ rest).getD (kMessageIdPosition + 1) 0 = 0 := rfl
    rw [SecureRequestData.msgId, hwords, hlow, hhigh, idOfWords, UInt32.toNat_zero, Nat.zero_mul]
    rfl
  have hsize : kMessageBodyPosition < SecureRequestData.size { words := b.words } := by
    rw [SecureRequestData.size, hwords, List.length_append, List.length_replicate,
      kMessageBodyPosition]
    omega
  obtain ⟨seqNo, sent, heq⟩ := prepareToSend_new (s := b.s) hsize hid b.bigMsgId
  rw [finishContainer, heq]
  refine ⟨⟨seqNo, rfl⟩, rfl, rfl, fun ref href => ?_, ?_, rfl, rfl, rfl, rfl, rfl⟩
  · dsimp only [allocate]
    rw [modifyRequest_heap, if_neg href]
  · dsimp only [allocate]
    rw [modifyRequest_heap, if_pos rfl]

/-- What the container holds of a request: the header of its message and what was
counted for it. -/
def placedSize (options : SendOptions) (s : Session) (ref : Ref) : Nat :=
  (s.heap ref).messageSize +
    if ref ∈ s.toSendRefs ∧ (!s.inited && (s.heap ref).needsLayer) then
      options.initSerialized.length
    else 0

variable (options) in
theorem sum_placedSize (e : Extras) (hnodup : (s.placeOrder e).Nodup) :
    2 + ((s.placeOrder e).map (s.placedSize options)).sum =
      s.containerSize e options.initSerialized.length := by
  obtain ⟨-, hrest, hping⟩ := List.nodup_append.mp hnodup
  obtain ⟨-, -, hdisjoint⟩ := List.nodup_append.mp hrest
  have hextra : ∀ req : Option Ref, (∀ ref ∈ req.toList, ref ∉ s.toSendRefs) →
      (req.toList.map (s.placedSize options)).sum = s.extraSize req := by
    intro req hreq
    cases req with
    | none => rfl
    | some req =>
      have hnot := hreq req (List.mem_singleton_self req)
      rw [Option.toList_some, List.map_singleton, List.sum_singleton, placedSize,
        if_neg fun h => hnot h.1, Nat.add_zero]
      rfl
  have hsend : s.toSendRefs.map (s.placedSize options) = s.toSendRefs.map fun req =>
      (s.heap req).messageSize +
        if !s.inited && (s.heap req).needsLayer then options.initSerialized.length else 0 := by
    refine List.map_congr_left fun ref href => ?_
    rw [placedSize]
    simp only [href, true_and]
  have hafter : ∀ ref ∈ e.state.toList ++ (e.resend.toList ++ (e.ack.toList ++
      e.httpWait.toList)), ref ∉ s.toSendRefs :=
    fun ref href hmem => hdisjoint ref hmem ref href rfl
  simp only [placeOrder, List.map_append, List.sum_append]
  rw [hextra e.ping fun ref href hmem => hping ref href ref (List.mem_append_left _ hmem) rfl,
    hsend, hextra e.state fun ref href => hafter ref (by simp [href]),
    hextra e.resend fun ref href => hafter ref (by simp [href]),
    hextra e.ack fun ref href => hafter ref (by simp [href]),
    hextra e.httpWait fun ref href => hafter ref (by simp [href]), containerSize]
  omega

/-- Every request that asks for `initConnection` gets it. -/
def LayerForAcked (s : Session) : Prop :=
  ∀ (requestId : RequestId) (req : Ref), s.toSend[requestId]? = some req →
    s.inited = false → (s.heap req).needsLayer → (s.heap req).needAck

theorem grown_le {p : Placed} (h : RequestPlaced options s p) : p.grown ≤ 3 := by
  obtain ⟨after, hgrown, -, rfl | ⟨ref, afterId, -, rfl⟩⟩ := h.wrap
  · rw [hgrown]
    exact Nat.zero_le 3
  · exact Nat.le_of_eq hgrown

theorem length_layerWords (s : Session) (r : SecureRequestData) :
    (s.layerWords options r).length =
      if !s.inited && r.needsLayer then options.initSerialized.length else 0 := by
  rw [layerWords]
  split
  · rfl
  · rfl

theorem recorded_eq_needAck {p : Placed} (h : RequestPlaced options s p)
    (hne : (s.heap p.req).requestId ≠ 0) : p.recorded = (s.heap p.req).needAck := by
  rw [h.recorded, bne_iff_ne.mpr hne, Bool.true_and]

/-- A request that does not ask for `initConnection` in vain has it in front. -/
theorem layerWords_placed {p : Placed} (h : RequestPlaced options s p)
    (hne : (s.heap p.req).requestId ≠ 0)
    (hlayer : s.inited = false → (s.heap p.req).needsLayer → (s.heap p.req).needAck) :
    (if p.recorded then s.layerWords options (s.heap p.req) else []) =
      s.layerWords options (s.heap p.req) := by
  rw [recorded_eq_needAck h hne]
  split
  · rfl
  · next hack =>
    rw [layerWords, if_neg]
    intro hboth
    rw [Bool.and_eq_true, Bool.not_eq_true'] at hboth
    exact hack (hlayer hboth.1 hboth.2)

theorem length_encode_placed {p : Placed} (hserialized : (s.heap p.req).Serialized)
    (hpayload : p.message.payload = p.wrap ++ (s.heap p.req).inner) :
    p.message.encode.length = (s.heap p.req).messageSize + p.wrap.length := by
  rw [Message.length_encode, hpayload, List.length_append, hserialized.length_inner,
    SecureRequestData.messageSize, if_neg (Nat.not_le.mpr hserialized.size)]
  omega

/-- A message never takes more than was counted for it, and just that when the request
gets the `initConnection` it asks for. -/
theorem length_placed {p : Placed} (hserialized : (s.heap p.req).Serialized)
    (hpayload : p.message.payload = p.wrap ++ (s.heap p.req).inner)
    (hp : p.req ∈ s.toSendRefs ∧ RequestPlaced options s p ∨
      p.req ∉ s.toSendRefs ∧ OwnPlaced p) :
    p.message.encode.length ≤ p.grown + s.placedSize options p.req ∧
      ((p.req ∈ s.toSendRefs → (s.heap p.req).requestId ≠ 0 ∧
          (s.inited = false → (s.heap p.req).needsLayer → (s.heap p.req).needAck)) →
        p.message.encode.length = p.grown + s.placedSize options p.req) := by
  rw [length_encode_placed hserialized hpayload, placedSize]
  rcases hp with ⟨hmem, hrequest⟩ | ⟨hmem, hown⟩
  · obtain ⟨after, hgrown, hwrap, -⟩ := hrequest.wrap
    rw [hwrap, List.length_append, hgrown]
    simp only [hmem, true_and, true_implies]
    constructor
    · rw [← length_layerWords]
      split
      · omega
      · rw [List.length_nil]
        omega
    · rintro ⟨hne, hlayer⟩
      rw [layerWords_placed hrequest hne hlayer, length_layerWords]
      omega
  · rw [hown.wrap, hown.grown, if_neg fun h => hmem h.1]
    exact ⟨by simp, fun _ => by simp⟩

theorem length_placeOrder (e : Extras) :
    (s.placeOrder e).length = s.toSendRefs.length + e.count := by
  simp only [placeOrder, List.length_append, Extras.count]
  omega

/-- The words and the maps of a container that was built. -/
structure Sends (options : SendOptions) (clock : Nat → MsgId) (s : Session) (e : Extras)
    (ps : List Placed) (b : Building) : Prop where
  nodup : (ps.map Placed.req).Nodup
  ready : ∀ p ∈ ps, Ready clock (s.beginContainer options clock e) p.req
  run : Placements clock (s.beginContainer options clock e) ps b
  order : ps.map Placed.req = s.placeOrder e
  kind : ∀ p ∈ ps, p.req ∈ s.toSendRefs ∧ RequestPlaced options s p ∨
    p.req ∉ s.toSendRefs ∧ OwnPlaced p
  words : b.words = List.replicate 7 0 ++
    (UInt32.ofNat (4 * (s.containerSize e options.initSerialized.length +
        (ps.map Placed.grown).sum)) :: mtpc_msg_container :: UInt32.ofNat ps.length ::
      (ps.map Placed.message).flatMap Message.encode)

variable (clock) in
theorem Sendable.sends (h : s.Sendable options) :
    Sends options clock (s.makeExtras options).2 (s.makeExtras options).1
      ((s.makeExtras options).2.containerPlaced options clock (s.makeExtras options).1)
      ((s.makeExtras options).2.placeAll options clock (s.makeExtras options).1) := by
  have hnodup := h.nodup_placeOrder
  have hready := h.ready clock
  generalize (s.makeExtras options).1 = e at hnodup hready ⊢
  generalize (s.makeExtras options).2 = s₁ at hnodup hready ⊢
  obtain ⟨hrun, horder, hkind⟩ := placements_container e hnodup hready
  have hlength : (s₁.containerPlaced options clock e).length =
      s₁.toSendRefs.length + e.count := by
    rw [← length_placeOrder, ← horder, List.length_map]
  refine ⟨horder ▸ hnodup, fun p hp => hready _ (horder ▸ List.mem_map_of_mem hp), hrun, horder,
    hkind, ?_⟩
  rw [words_container e hnodup hready, hlength, List.flatMap_map]

theorem length_placed_lt {p : Placed} (hserialized : (s.heap p.req).Serialized)
    (hpayload : p.message.payload = p.wrap ++ (s.heap p.req).inner) (hmem : p.req ∈ s.toSendRefs)
    (hp : RequestPlaced options s p) (hinit : options.initSerialized ≠ [])
    (hinited : s.inited = false) (hlayer : (s.heap p.req).needsLayer)
    (hack : (s.heap p.req).needAck = false) :
    p.message.encode.length < p.grown + s.placedSize options p.req := by
  obtain ⟨after, hgrown, hwrap, -⟩ := hp.wrap
  have hpos := List.length_pos_of_ne_nil hinit
  have hrecorded : p.recorded = false := by rw [hp.recorded, hack, Bool.and_false]
  have hcounted : p.req ∈ s.toSendRefs ∧ (!s.inited && (s.heap p.req).needsLayer) = true :=
    ⟨hmem, by rw [hinited, hlayer]; rfl⟩
  rw [hrecorded, if_neg Bool.false_ne_true, List.nil_append] at hwrap
  rw [length_encode_placed hserialized hpayload, placedSize, if_pos hcounted, hwrap, hgrown]
  omega

theorem length_le_flatMap_encode (ps : List Placed) :
    ps.length ≤ ((ps.map Placed.message).flatMap Message.encode).length := by
  induction ps with
  | nil => exact Nat.zero_le _
  | cons p ps ih =>
    rw [List.map_cons, List.flatMap_cons, List.length_cons, List.length_append,
      Message.length_encode]
    omega

section

variable {e : Extras} {ps : List Placed} {b : Building}

theorem Sends.payload (h : Sends options clock s e ps b) {p : Placed} (hp : p ∈ ps) :
    p.message.payload = p.wrap ++ (s.heap p.req).inner :=
  h.run.payload h.nodup h.ready hp

theorem Sends.serialized (h : Sends options clock s e ps b) {p : Placed} (hp : p ∈ ps) :
    (s.heap p.req).Serialized :=
  (h.ready p hp).serialized

theorem Sends.length_le (h : Sends options clock s e ps b) :
    2 + ((ps.map Placed.message).flatMap Message.encode).length ≤
      s.containerSize e options.initSerialized.length + (ps.map Placed.grown).sum := by
  have hle : (ps.map fun p => p.message.encode.length).sum ≤
      (ps.map fun p => p.grown + s.placedSize options p.req).sum :=
    List.sum_le_sum fun p hp =>
      (length_placed (h.serialized hp) (h.payload hp) (h.kind p hp)).1
  rw [List.sum_map_add] at hle
  have hsum := sum_placedSize options e (h.order ▸ h.nodup)
  rw [← h.order, List.map_map] at hsum
  rw [List.flatMap_map, List.length_flatMap]
  simp only [Function.comp_def] at hsum
  omega

theorem Sends.length_eq (h : Sends options clock s e ps b)
    (hlayer : ∀ req ∈ s.toSendRefs, (s.heap req).requestId ≠ 0 ∧
      (s.inited = false → (s.heap req).needsLayer → (s.heap req).needAck)) :
    2 + ((ps.map Placed.message).flatMap Message.encode).length =
      s.containerSize e options.initSerialized.length + (ps.map Placed.grown).sum := by
  have heq : (ps.map fun p => p.message.encode.length) =
      ps.map fun p => p.grown + s.placedSize options p.req :=
    List.map_congr_left fun p hp =>
      (length_placed (h.serialized hp) (h.payload hp) (h.kind p hp)).2 (hlayer p.req)
  have hsum := sum_placedSize options e (h.order ▸ h.nodup)
  rw [← h.order, List.map_map] at hsum
  rw [List.flatMap_map, List.length_flatMap, heq, List.sum_map_add, ← hsum]
  simp only [Function.comp_def]
  omega

end

theorem sum_grown_le {ps : List Placed} (refs : List Ref)
    (h : ∀ p ∈ ps, p.grown ≤ if p.req ∈ refs then 3 else 0) :
    (ps.map Placed.grown).sum ≤ 3 * ((ps.map Placed.req).filter (· ∈ refs)).length := by
  induction ps with
  | nil => exact Nat.zero_le _
  | cons p ps ih =>
    obtain ⟨hp, hps⟩ := List.forall_mem_cons.mp h
    have hsum := ih hps
    rw [List.map_cons, List.map_cons, List.sum_cons, List.filter_cons]
    by_cases hmem : p.req ∈ refs
    · rw [if_pos hmem] at hp
      rw [if_pos (by simpa using hmem), List.length_cons]
      omega
    · rw [if_neg hmem] at hp
      rw [if_neg (by simpa using hmem)]
      omega

section

variable {e : Extras} {ps : List Placed} {b : Building}

theorem Sends.length_ne (h : Sends options clock s e ps b) {req : Ref}
    (hmem : req ∈ s.toSendRefs) (hinit : options.initSerialized ≠ []) (hinited : s.inited = false)
    (hlayer : (s.heap req).needsLayer) (hack : (s.heap req).needAck = false) :
    2 + ((ps.map Placed.message).flatMap Message.encode).length ≠
      s.containerSize e options.initSerialized.length + (ps.map Placed.grown).sum := by
  have hreq : req ∈ ps.map Placed.req := by
    rw [h.order]
    exact List.mem_append_right _ (List.mem_append_left _ hmem)
  obtain ⟨p, hp, rfl⟩ := List.mem_map.mp hreq
  have hrequest : RequestPlaced options s p := by
    rcases h.kind p hp with ⟨-, hrequest⟩ | ⟨hnot, -⟩
    · exact hrequest
    · exact absurd hmem hnot
  have hlt : (ps.map fun p => p.message.encode.length).sum <
      (ps.map fun p => p.grown + s.placedSize options p.req).sum :=
    List.sum_lt_sum _ _
      (fun p hp => (length_placed (h.serialized hp) (h.payload hp) (h.kind p hp)).1)
      ⟨p, hp, length_placed_lt (h.serialized hp) (h.payload hp) hmem hrequest hinit hinited hlayer
        hack⟩
  rw [List.sum_map_add] at hlt
  have hsum := sum_placedSize options e (h.order ▸ h.nodup)
  rw [← h.order, List.map_map] at hsum
  rw [List.flatMap_map, List.length_flatMap]
  simp only [Function.comp_def] at hsum
  omega

/-- The buffer that is reserved for the container has room for the messages. -/
theorem Sends.length_lt (h : Sends options clock s e ps b)
    (hsize : s.containerSize e options.initSerialized.length + 3 * s.toSend.size < 2 ^ 29) :
    s.containerSize e options.initSerialized.length + (ps.map Placed.grown).sum < 2 ^ 29 := by
  have hcount : ((ps.map Placed.req).filter (· ∈ s.toSendRefs)).length ≤ s.toSend.size := by
    have hsub : (ps.map Placed.req).filter (· ∈ s.toSendRefs) ⊆ s.toSendRefs := fun ref href =>
      of_decide_eq_true (List.mem_filter.mp href).2
    refine ((h.nodup.filter _).subperm hsub).length_le.trans ?_
    rw [toSendRefs, List.length_map, Std.ExtTreeMap.length_toList]
  have hgrown := sum_grown_le s.toSendRefs fun p hp => by
    rcases h.kind p hp with ⟨hmem, hrequest⟩ | ⟨hmem, hown⟩
    · rw [if_pos hmem]
      exact grown_le hrequest
    · rw [hown.grown]
      exact Nat.zero_le _
  omega

end

/-- What the message of a request holds: the id and the number the request has now,
and its body behind what was put in front. -/
structure IsMessageOf (options : SendOptions) (s s' : Session) (req : Ref) (m : Message) : Prop where
  msgId : m.msgId = (s'.heap req).msgId
  seqNo : m.seqNo = (s'.heap req).seqNo
  payload : ∃ after, (after = [] ∨ ∃ ref afterId, (s.heap req).after = some ref ∧
      after = mtpc_invokeAfterMsg :: idWords afterId) ∧
    m.payload = (if req ∈ s.toSendRefs then s.layerWords options (s.heap req) else []) ++ after ++
      (s.heap req).inner

theorem Sendable.lt_of_mem (h : s.Sendable options) (ref : Ref)
    (href : ref ∈ (s.makeExtras options).2.placeOrder (s.makeExtras options).1) :
    ref ≠ options.fresh + 5 := by
  have hmem := (placeOrder_sublist s).subset href
  have hlt : ∀ ref ∈ s.toSendRefs, ref < options.fresh + 5 := by
    intro ref href
    obtain ⟨requestId, hget⟩ := mem_toSendRefs.mp href
    exact Nat.lt_add_right 5 (h.toSend requestId ref hget)
  simp only [List.mem_append, List.mem_cons, List.not_mem_nil, or_false] at hmem
  refine Nat.ne_of_lt ?_
  rcases hmem with rfl | hmem | rfl | rfl | rfl | rfl
  · exact Nat.lt_add_of_pos_right (by decide)
  · exact hlt ref hmem
  all_goals exact Nat.add_lt_add_left (by decide) _

theorem Sendable.layer (h : s.Sendable options) (hlayer : s.LayerForAcked) :
    ∀ req ∈ (s.makeExtras options).2.toSendRefs,
      ((s.makeExtras options).2.heap req).requestId ≠ 0 ∧
        ((s.makeExtras options).2.inited = false →
          ((s.makeExtras options).2.heap req).needsLayer →
          ((s.makeExtras options).2.heap req).needAck) := by
  intro req hreq
  obtain ⟨requestId, hget⟩ := mem_toSendRefs.mp hreq
  obtain ⟨hkey, hne⟩ := h.key requestId req hget
  rw [makeExtras_heap (h.toSend requestId req hget)]
  exact ⟨hkey ▸ hne, hlayer requestId req hget⟩

variable (clock) in
theorem Sendable.finished (h : s.Sendable options) :
    Finished options ((s.makeExtras options).2.placeAll options clock (s.makeExtras options).1)
      ((s.makeExtras options).2.containerPlaced options clock (s.makeExtras options).1).length
      (s.sendContainer options clock) := by
  have hsends := h.sends clock
  have hcount : (s.makeExtras options).2.toSendRefs.length + (s.makeExtras options).1.count =
      ((s.makeExtras options).2.containerPlaced options clock (s.makeExtras options).1).length := by
    rw [← length_placeOrder, ← hsends.order, List.length_map]
  rw [← hcount]
  exact Session.finished _ _ hsends.words (by simp)

section

variable {e : Extras} {ps : List Placed} {b : Building} {sent : Sent}

theorem Sends.size (h : Sends options clock s e ps b) :
    kMessageBodyPosition < SecureRequestData.size { words := b.words } := by
  rw [SecureRequestData.size, h.words, kMessageBodyPosition]
  simp

theorem Sends.body (h : Sends options clock s e ps b) {count : Nat}
    (hsent : Finished options b count sent) : sent.toSendRequest.body =
      mtpc_msg_container :: UInt32.ofNat ps.length ::
        (ps.map Placed.message).flatMap Message.encode := by
  obtain ⟨seqNo, heq⟩ := hsent.toSendRequest
  rw [heq, SecureRequestData.body_identify h.size, SecureRequestData.body, h.words]
  rfl

theorem Sends.innerLength (h : Sends options clock s e ps b) {count : Nat}
    (hsent : Finished options b count sent) : sent.toSendRequest.innerLength =
      UInt32.ofNat (4 * (s.containerSize e options.initSerialized.length +
        (ps.map Placed.grown).sum)) := by
  obtain ⟨seqNo, heq⟩ := hsent.toSendRequest
  rw [heq, SecureRequestData.innerLength_identify h.size, SecureRequestData.innerLength,
    if_neg (Nat.not_le.mpr h.size), h.words]
  rfl

theorem Sends.fits (h : Sends options clock s e ps b)
    (hsize : s.containerSize e options.initSerialized.length + 3 * s.toSend.size < 2 ^ 29) :
    ∀ m ∈ ps.map Placed.message, m.Fits := by
  have hlt := h.length_lt hsize
  have hle := h.length_le
  intro m hm
  have hlength : m.encode.length ≤ ((ps.map Placed.message).flatMap Message.encode).length := by
    rw [List.length_flatMap]
    exact List.le_sum_of_mem (List.mem_map_of_mem hm)
  rw [Message.length_encode] at hlength
  obtain ⟨p, hp, rfl⟩ := List.mem_map.mp hm
  have hserialized := h.serialized hp
  have hpos := hserialized.pos
  have hpayload : p.message.payload.length = p.wrap.length + (s.heap p.req).lenInInts := by
    rw [h.payload hp, List.length_append, hserialized.length_inner]
  exact ⟨by omega, by omega⟩

end

/-- A session that has one request to send. -/
def waiting (r : SecureRequestData) : Session where
  heap := fun _ => r
  toSend := (∅ : Std.ExtTreeMap RequestId Ref).insert r.requestId 0

theorem getElem?_waiting {r : SecureRequestData} {requestId : RequestId} {req : Ref} :
    (waiting r).toSend[requestId]? = some req ↔ r.requestId = requestId ∧ 0 = req := by
  rw [waiting, Std.ExtTreeMap.getElem?_insert]
  by_cases h : r.requestId = requestId
  · simp [h]
  · simp [h, Std.LawfulEqCmp.compare_eq_iff_eq]

theorem sendable_waiting {r : SecureRequestData} (hr : r.Serialized) (hid : r.requestId ≠ 0)
    (hfresh : 0 < options.fresh) : (waiting r).Sendable options where
  key requestId req h := by
    obtain ⟨rfl, rfl⟩ := getElem?_waiting.mp h
    exact ⟨rfl, hid⟩
  serialized _ _ _ := hr
  unsent _ _ _ id h := by simp [waiting] at h
  toSend requestId req h := by
    obtain ⟨rfl, rfl⟩ := getElem?_waiting.mp h
    exact hfresh
  haveSent id req h := by simp [waiting] at h
  acks := by simp [waiting]
  resends := by simp [waiting]
  states := by simp [waiting]

theorem toSendRefs_waiting (r : SecureRequestData) : (waiting r).toSendRefs = [0] := by
  rw [toSendRefs, waiting, Std.ExtTreeMap.toList_insert_empty]
  rfl

variable (options) in
theorem containerSize_waiting {r : SecureRequestData} (hr : r.Serialized)
    (hping : options.pingIdToSend = 0) (hhttp : options.usingHttpWait = false)
    (hfresh : 0 < options.fresh) :
    ((waiting r).makeExtras options).2.containerSize ((waiting r).makeExtras options).1
        options.initSerialized.length + 3 * (waiting r).toSend.size ≤
      9 + r.lenInInts + options.initSerialized.length := by
  have hextras : ((waiting r).makeExtras options).1 = {} := by
    simp [makeExtras, waiting, hping, hhttp]
  have hrefs : ((waiting r).makeExtras options).2.toSendRefs = [0] := toSendRefs_waiting r
  have hheap : ((waiting r).makeExtras options).2.heap 0 = r := makeExtras_heap hfresh
  have hsize : (waiting r).toSend.size = 1 := by
    rw [← Std.ExtTreeMap.length_toList, waiting, Std.ExtTreeMap.toList_insert_empty]
    rfl
  rw [hsize, hextras, containerSize, hrefs, List.map_singleton, List.sum_singleton, hheap,
    SecureRequestData.messageSize, if_neg (Nat.not_le.mpr hr.size)]
  simp only [extraSize, Option.map_none, Option.getD_none]
  split
  · omega
  · omega

/-- With a request that asks for `initConnection` and needs no answer the container
counts more words than it has. -/
theorem readContainer_eq_none (h : s.Sendable options) (hinit : options.initSerialized ≠ [])
    (hinited : s.inited = false) {requestId : RequestId} {req : Ref}
    (hreq : s.toSend[requestId]? = some req) (hlayer : (s.heap req).needsLayer)
    (hack : (s.heap req).needAck = false)
    (hsize : (s.makeExtras options).2.containerSize (s.makeExtras options).1
      options.initSerialized.length + 3 * s.toSend.size < 2 ^ 29) :
    readContainer (s.sendContainer options clock).toSendRequest = none := by
  have hsends := h.sends clock
  have hsent := h.finished clock
  have hheap := makeExtras_heap (s := s) (h.toSend requestId req hreq)
  have hmem : req ∈ (s.makeExtras options).2.toSendRefs := mem_toSendRefs.mpr ⟨requestId, hreq⟩
  have hinited' : (s.makeExtras options).2.inited = false := hinited
  have hsize' : (s.makeExtras options).2.toSend.size = s.toSend.size := rfl
  rw [← hsize'] at hsize
  rw [← hheap] at hlayer hack
  generalize s.sendContainer options clock = sent at hsent ⊢
  generalize (s.makeExtras options).1 = e at *
  generalize (s.makeExtras options).2 = s₁ at *
  generalize s₁.placeAll options clock e = b at *
  generalize s₁.containerPlaced options clock e = placed at *
  have hlt := hsends.length_lt hsize
  have hless := hsends.length_ne hmem hinit hinited' hlayer hack
  rw [readContainer, hsends.body hsent]
  dsimp only
  rw [if_neg]
  rintro ⟨-, hlength⟩
  rw [hsends.innerLength hsent, UInt32.toNat_ofNat'] at hlength
  omega

/-- A container is read back as its messages, which are the requests of the session
and of the application in their order, when each request that asks for
`initConnection` needs an answer. -/
theorem readContainer_sendContainer (h : s.Sendable options) (hlayer : s.LayerForAcked)
    (hsize : (s.makeExtras options).2.containerSize (s.makeExtras options).1
      options.initSerialized.length + 3 * s.toSend.size < 2 ^ 29) :
    let placed := (s.makeExtras options).2.containerPlaced options clock (s.makeExtras options).1
    let sent := s.sendContainer options clock
    readContainer sent.toSendRequest = some (placed.map Placed.message) ∧
      placed.map Placed.req = (s.makeExtras options).2.placeOrder (s.makeExtras options).1 ∧
      ∀ p ∈ placed, IsMessageOf options (s.makeExtras options).2 sent.s p.req p.message := by
  have hsends := h.sends clock
  have hsent := h.finished clock
  have hlayers := h.layer hlayer
  have hfresh := h.lt_of_mem
  have hsize' : (s.makeExtras options).2.toSend.size = s.toSend.size := rfl
  rw [← hsize'] at hsize
  generalize (s.makeExtras options).1 = e at *
  generalize (s.makeExtras options).2 = s₁ at *
  generalize s₁.placeAll options clock e = b at *
  intro placed sent
  change Sends options clock s₁ e placed b at hsends
  change Finished options b placed.length sent at hsent
  have hlt := hsends.length_lt hsize
  have heq := hsends.length_eq hlayers
  refine ⟨?_, hsends.order, fun p hp => ?_⟩
  · refine readContainer_encode (hsends.body hsent) ?_ (hsends.fits hsize) ?_
    · rw [List.length_map, UInt32.toNat_ofNat']
      have hle := length_le_flatMap_encode placed
      omega
    · rw [hsends.innerLength hsent, UInt32.toNat_ofNat', ← heq]
      omega
  · obtain ⟨hid, hseq⟩ := hsends.run.ids hsends.nodup hp
    have hreq : p.req ∈ s₁.placeOrder e := hsends.order ▸ List.mem_map_of_mem hp
    have hheap := hsent.heap p.req (hfresh p.req hreq)
    refine ⟨by rw [hheap, hid], by rw [hheap, hseq], ?_⟩
    rw [hsends.payload hp]
    rcases hsends.kind p hp with ⟨hmem, hrequest⟩ | ⟨hmem, hown⟩
    · obtain ⟨after, -, hwrap, hafter⟩ := hrequest.wrap
      refine ⟨after, hafter, ?_⟩
      obtain ⟨hne, hneeds⟩ := hlayers p.req hmem
      rw [if_pos hmem, hwrap, layerWords_placed hrequest hne hneeds]
    · exact ⟨[], .inl rfl, by rw [if_neg hmem, hown.wrap]; rfl⟩

def layerOptions : SendOptions := { now := 1, initSerialized := [0xda9b0d0d, 85], fresh := 1 }

def layerRequest (typeId : UInt32) : SecureRequestData :=
  { serialize [typeId, 0] with requestId := 7, needsLayer := true }

theorem serialized_layerRequest (typeId : UInt32) : (layerRequest typeId).Serialized :=
  serialized_of_words (serialized_serialize (List.cons_ne_nil typeId [0])
    (Nat.succ_lt_succ (Nat.succ_lt_succ (by simp)))) rfl

theorem sendable_layerRequest (typeId : UInt32) :
    (waiting (layerRequest typeId)).Sendable layerOptions :=
  sendable_waiting (serialized_layerRequest typeId) (show (7 : RequestId) ≠ 0 by decide) Nat.one_pos

theorem size_layerRequest (typeId : UInt32) :
    ((waiting (layerRequest typeId)).makeExtras layerOptions).2.containerSize
        ((waiting (layerRequest typeId)).makeExtras layerOptions).1
        layerOptions.initSerialized.length + 3 * (waiting (layerRequest typeId)).toSend.size <
      2 ^ 29 := by
  have hints : (layerRequest typeId).lenInInts = 2 := by
    simp [SecureRequestData.lenInInts, SecureRequestData.innerLength, layerRequest, serialize,
      prepare, SecureRequestData.size, kMessageBodyPosition, kMessageLengthPosition]
  have hinit : layerOptions.initSerialized.length = 2 := rfl
  have hsize := containerSize_waiting layerOptions (serialized_layerRequest typeId)
    rfl rfl Nat.one_pos
  rw [hints] at hsize
  omega

theorem readContainer_layerRequest :
    ∃ messages, readContainer
      ((waiting (layerRequest 1)).sendContainer layerOptions UInt64.ofNat).toSendRequest =
        some messages :=
  ⟨_, (readContainer_sendContainer (sendable_layerRequest 1)
    (fun _ _ _ _ _ => show (layerRequest 1).needAck by decide) (size_layerRequest 1)).1⟩

/-- An acknowledgement that asks for `initConnection` does not get it, but is counted
as if it did. -/
theorem readContainer_ack_fails : (waiting (layerRequest mtpc_msgs_ack)).Sendable layerOptions ∧
    readContainer ((waiting (layerRequest mtpc_msgs_ack)).sendContainer layerOptions
      UInt64.ofNat).toSendRequest = none :=
  ⟨sendable_layerRequest _, readContainer_eq_none (sendable_layerRequest _) (by decide) rfl
    (getElem?_waiting.mpr ⟨rfl, rfl⟩) rfl (by decide) (size_layerRequest _)⟩

end Session

end TelegramClient.Mtproto
