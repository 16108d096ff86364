import Mathlib
import TelegramClient.Mtproto.ContainerParsing

/-! The ids in a container: each once, below the id of the container, and the same in
the messages and in the maps of the session. -/

namespace TelegramClient.Mtproto.Session

/-- What the server and the session know of a container agrees. -/
structure Disciplined (s : Session) (sent : Sent) (messages : List Message) : Prop where
  read : readMessages messages.length (sent.toSendRequest.body.drop 2) = some (messages, [])
  distinct : (messages.map Message.msgId).Nodup
  below : ∀ m ∈ messages, m.msgId < sent.contMsgId
  contMsgId : sent.toSendRequest.msgId = sent.contMsgId
  sentIds : ∃ wrap, sent.s.haveSent[sent.contMsgId]? = some wrap ∧
    (sent.s.heap wrap).sentIds = messages.map Message.msgId
  requests : ∀ (requestId : RequestId) (req : Ref), s.toSend[requestId]? = some req →
    ∃ m ∈ messages, m.msgId = (sent.s.heap req).msgId ∧ m.seqNo = (sent.s.heap req).seqNo ∧
      (if (s.heap req).needAck then sent.s.haveSent[m.msgId]? = some req
        else sent.s.wereAcked[m.msgId]? = some requestId) ∧
      ((s.heap req).msgId ≠ 0 → sent.s.toResend[(s.heap req).msgId]? = none)
  toSend : sent.s.toSend = ∅

variable {options : SendOptions} {clock : Nat → MsgId} {s : Session} {b b' : Building}
  {ps : List Placed}

/-! ### Where the ids come from -/

/-- Ids of requests that are sent again: each has its own, and the clock gives it to no
other. -/
structure Apart (clock : Nat → MsgId) (start : Nat) (s : Session) (refs : List Ref) : Prop where
  stored : ∀ ref ∈ refs, ∀ ref' ∈ refs, (s.heap ref).msgId ≠ 0 →
    (s.heap ref).msgId = (s.heap ref').msgId → ref = ref'
  clock : ∀ ref ∈ refs, (s.heap ref).msgId ≠ 0 → ∀ n, start ≤ n → clock n ≠ (s.heap ref).msgId

theorem Placement.source {p : Placed} (h : Placement clock b b' p) {n : Nat}
    (hn : b.s.drawn = n + 1) (hbig : b.bigMsgId = clock n) :
    (b.s.heap p.req).msgId ≠ 0 ∧ p.message.msgId = (b.s.heap p.req).msgId ∧
        p.message.msgId < clock n ∨
      ∃ k, n ≤ k ∧ k + 1 < b'.s.drawn ∧ p.message.msgId = clock k := by
  rw [h.written.drawn]
  rcases h.assigned.source with ⟨hid, hmsg, hlt, -⟩ | ⟨k, hk, hlt, hmsg⟩
  · exact .inl ⟨hid, hmsg, hbig ▸ hlt⟩
  · exact .inr ⟨k, by omega, hlt, hmsg⟩

theorem Placement.drawn_le {p : Placed} (h : Placement clock b b' p) : b.s.drawn ≤ b'.s.drawn := by
  rw [h.written.drawn]
  exact h.assigned.identified.drawn

theorem Placements.drawn_le (h : Placements clock b ps b') : b.s.drawn ≤ b'.s.drawn := by
  induction h with
  | nil b => exact Nat.le_refl _
  | cons _ step _ ih => exact Nat.le_trans step.drawn_le ih

theorem Placements.big (h : Placements clock b ps b')
    (hbig : ∃ n, b.s.drawn = n + 1 ∧ b.bigMsgId = clock n) :
    ∃ n, b'.s.drawn = n + 1 ∧ b'.bigMsgId = clock n := by
  induction h with
  | nil b => exact hbig
  | cons _ step _ ih => exact ih step.big

theorem Placements.source (h : Placements clock b ps b') (hnodup : (ps.map Placed.req).Nodup)
    {n n' : Nat} (hn : b.s.drawn = n + 1) (hbig : b.bigMsgId = clock n)
    (hn' : b'.s.drawn = n' + 1) (hrise : Rising clock n (n' + 1)) {p : Placed} (hp : p ∈ ps) :
    (b.s.heap p.req).msgId ≠ 0 ∧ p.message.msgId = (b.s.heap p.req).msgId ∧
        p.message.msgId < clock n' ∨
      ∃ k, n ≤ k ∧ k < n' ∧ p.message.msgId = clock k := by
  induction h generalizing n with
  | nil b => cases hp
  | @cons b b₁ b₂ q qs _ step rest ih =>
    obtain ⟨hhead, htail⟩ := List.nodup_cons.mp hnodup
    obtain ⟨n₁, hn₁, hbig₁⟩ := step.big
    have hle := step.drawn_le
    have hle' := rest.drawn_le
    rcases List.mem_cons.mp hp with rfl | hp
    · rcases step.source hn hbig with ⟨hid, hmsg, hlt⟩ | ⟨k, hk, hlt, hmsg⟩
      · refine .inl ⟨hid, hmsg, UInt64.lt_of_lt_of_le hlt ?_⟩
        exact hrise.le (Nat.le_refl n) (by omega) (Nat.lt_succ_self n')
      · exact .inr ⟨k, hk, by omega, hmsg⟩
    · have hne : p.req ≠ q.req := fun heq => hhead (heq ▸ List.mem_map_of_mem hp)
      rw [← (step.ids_other hne).1]
      rcases ih htail hn₁ hbig₁ hn' (hrise.sub (by omega) (Nat.le_refl _)) hp with
        hstored | ⟨k, hk, hlt, hmsg⟩
      · exact .inl hstored
      · exact .inr ⟨k, by omega, hlt, hmsg⟩

theorem Placements.msgId_lt (h : Placements clock b ps b') (hnodup : (ps.map Placed.req).Nodup)
    {n n' : Nat} (hn : b.s.drawn = n + 1) (hbig : b.bigMsgId = clock n)
    (hn' : b'.s.drawn = n' + 1) (hrise : Rising clock n (n' + 1)) {p : Placed} (hp : p ∈ ps) :
    p.message.msgId < clock n' := by
  rcases h.source hnodup hn hbig hn' hrise hp with ⟨-, -, hlt⟩ | ⟨k, hk, hlt, hmsg⟩
  · exact hlt
  · rw [hmsg]
    exact hrise k n' hk hlt (Nat.lt_succ_self n')

theorem Apart.sub {start start' : Nat} {s s' : Session} {refs refs' : List Ref}
    (h : Apart clock start s refs) (hstart : start ≤ start') (hrefs : refs' ⊆ refs)
    (hids : ∀ ref ∈ refs', (s'.heap ref).msgId = (s.heap ref).msgId) :
    Apart clock start' s' refs' := by
  refine ⟨fun ref href ref' href' => ?_, fun ref href => ?_⟩
  · rw [hids ref href, hids ref' href']
    exact h.stored ref (hrefs href) ref' (hrefs href')
  · rw [hids ref href]
    exact fun hid n hn => h.clock ref (hrefs href) hid n (Nat.le_trans hstart hn)

theorem Placements.nodup_ids (h : Placements clock b ps b') (hnodup : (ps.map Placed.req).Nodup)
    {n n' : Nat} (hn : b.s.drawn = n + 1) (hbig : b.bigMsgId = clock n)
    (hn' : b'.s.drawn = n' + 1) (hrise : Rising clock n (n' + 1))
    (hapart : Apart clock n b.s (ps.map Placed.req)) :
    (ps.map (·.message.msgId)).Nodup := by
  induction h generalizing n with
  | nil b => exact List.nodup_nil
  | @cons b b₁ b₂ p qs _ step rest ih =>
    obtain ⟨hhead, htail⟩ := List.nodup_cons.mp hnodup
    obtain ⟨n₁, hn₁, hbig₁⟩ := step.big
    have hle := step.drawn_le
    have hle' := rest.drawn_le
    have hrise₁ : Rising clock n₁ (n' + 1) := hrise.sub (by omega) (Nat.le_refl _)
    have hids : ∀ ref ∈ qs.map Placed.req, (b₁.s.heap ref).msgId = (b.s.heap ref).msgId :=
      fun ref href => (step.ids_other fun heq => hhead (heq ▸ href)).1
    refine List.nodup_cons.mpr ⟨fun hmem => ?_, ih htail hn₁ hbig₁ hn' hrise₁
      (hapart.sub (by omega) (List.subset_cons_self _ _) hids)⟩
    obtain ⟨q, hq, heq⟩ : ∃ q ∈ qs, q.message.msgId = p.message.msgId := List.mem_map.mp hmem
    have hqreq : q.req ∈ qs.map Placed.req := List.mem_map_of_mem hq
    have hpmem := List.mem_cons_self (a := p.req) (l := qs.map Placed.req)
    have hqmem : q.req ∈ p.req :: qs.map Placed.req := List.mem_cons_of_mem _ hqreq
    rcases rest.source htail hn₁ hbig₁ hn' hrise₁ hq with ⟨hqid, hqmsg, -⟩ | ⟨k', hk', hlt', hqmsg⟩
    · rw [hids _ hqreq] at hqid hqmsg
      rcases step.source hn hbig with ⟨-, hmsg, -⟩ | ⟨k, hk, -, hmsg⟩
      · have hsame := hapart.stored _ hqmem _ hpmem hqid (by rw [← hqmsg, heq, hmsg])
        exact hhead (hsame ▸ hqreq)
      · exact hapart.clock _ hqmem hqid k hk (by rw [← hmsg, ← heq, hqmsg])
    · rcases step.source hn hbig with ⟨hid, hmsg, -⟩ | ⟨k, hk, hlt, hmsg⟩
      · exact hapart.clock _ hpmem hid k' (by omega) (by rw [← hqmsg, heq, hmsg])
      · refine UInt64.lt_irrefl (clock k') ?_
        have hkk : clock k < clock k' := hrise k k' hk (by omega) (by omega)
        rwa [← hmsg, ← heq, hqmsg] at hkk

/-! ### What the maps record -/

theorem Placement.haveSent_other {p : Placed} (h : Placement clock b b' p) {id : MsgId}
    (hstored : (b.s.heap p.req).msgId ≠ 0 → id ≠ (b.s.heap p.req).msgId)
    (hid : id ≠ p.message.msgId) : b'.s.haveSent[id]? = b.s.haveSent[id]? := by
  rw [← h.assigned.identified.haveSent id hstored hid, h.written.haveSent]
  split
  · rw [Std.ExtTreeMap.getElem?_insert, if_neg]
    exact fun heq => hid (Std.LawfulEqCmp.compare_eq_iff_eq.mp heq).symm
  · rfl

theorem Placement.wereAcked_other {p : Placed} (h : Placement clock b b' p) {id : MsgId}
    (hstored : (b.s.heap p.req).msgId ≠ 0 → id ≠ (b.s.heap p.req).msgId)
    (hid : id ≠ p.message.msgId) : b'.s.wereAcked[id]? = b.s.wereAcked[id]? := by
  rw [← h.assigned.identified.wereAcked id hstored hid, h.written.wereAcked]
  split
  · rw [Std.ExtTreeMap.getElem?_insert, if_neg]
    exact fun heq => hid (Std.LawfulEqCmp.compare_eq_iff_eq.mp heq).symm
  · rfl

theorem Placement.toResend_none {p : Placed} (h : Placement clock b b' p) {id : MsgId}
    (hid : b.s.toResend[id]? = none) : b'.s.toResend[id]? = none := by
  rw [h.written.toResend]
  exact h.assigned.identified.toResend id hid

theorem Placements.toResend_none (h : Placements clock b ps b') {id : MsgId}
    (hid : b.s.toResend[id]? = none) : b'.s.toResend[id]? = none := by
  induction h with
  | nil b => exact hid
  | cons _ step _ ih => exact ih (step.toResend_none hid)

/-- An id that no request of a run has or had stays as it is recorded. -/
theorem Placements.others (h : Placements clock b ps b') (hnodup : (ps.map Placed.req).Nodup)
    (id : MsgId) (hid : ∀ p ∈ ps, ((b.s.heap p.req).msgId ≠ 0 → id ≠ (b.s.heap p.req).msgId) ∧
      id ≠ p.message.msgId) :
    b'.s.haveSent[id]? = b.s.haveSent[id]? ∧ b'.s.wereAcked[id]? = b.s.wereAcked[id]? := by
  induction h with
  | nil b => exact ⟨rfl, rfl⟩
  | @cons b b₁ b₂ p qs _ step rest ih =>
    obtain ⟨hhead, htail⟩ := List.nodup_cons.mp hnodup
    obtain ⟨hp, hqs⟩ := List.forall_mem_cons.mp hid
    have hids : ∀ q ∈ qs, (b₁.s.heap q.req).msgId = (b.s.heap q.req).msgId := fun q hq =>
      (step.ids_other fun heq => hhead (heq ▸ List.mem_map_of_mem hq)).1
    obtain ⟨hsent, hacked⟩ := ih htail fun q hq => by
      rw [hids q hq]
      exact hqs q hq
    exact ⟨hsent.trans (step.haveSent_other hp.1 hp.2),
      hacked.trans (step.wereAcked_other hp.1 hp.2)⟩

/-- The maps that keep a request under its id. -/
structure Recorded (s : Session) (p : Placed) (requestId : RequestId) (stored : MsgId) : Prop where
  haveSent : p.recorded → s.haveSent[p.message.msgId]? = some p.req
  wereAcked : p.acked → s.wereAcked[p.message.msgId]? = some requestId
  toResend : stored ≠ 0 → s.toResend[stored]? = none

theorem Placement.recorded {p : Placed} (h : Placement clock b b' p) :
    Recorded b'.s p (b.s.heap p.req).requestId (b.s.heap p.req).msgId := by
  refine ⟨fun hrecorded => ?_, fun hacked => ?_, fun hid => ?_⟩
  · rw [h.written.haveSent, if_pos hrecorded, Std.ExtTreeMap.getElem?_insert_self]
  · obtain ⟨seqNo, hheap, -⟩ := h.assigned.identified.request
    rw [h.written.wereAcked, if_pos hacked, Std.ExtTreeMap.getElem?_insert_self, hheap]
    rfl
  · rw [h.written.toResend]
    exact h.assigned.identified.resent hid

theorem Placements.recorded (h : Placements clock b ps b') (hnodup : (ps.map Placed.req).Nodup)
    (hready : ∀ p ∈ ps, Ready clock b p.req) {n n' : Nat} (hn : b.s.drawn = n + 1)
    (hbig : b.bigMsgId = clock n) (hn' : b'.s.drawn = n' + 1) (hrise : Rising clock n (n' + 1))
    (hapart : Apart clock n b.s (ps.map Placed.req)) {p : Placed} (hp : p ∈ ps) :
    Recorded b'.s p (b.s.heap p.req).requestId (b.s.heap p.req).msgId := by
  have hdistinct := h.nodup_ids hnodup hn hbig hn' hrise hapart
  induction h generalizing n with
  | nil b => cases hp
  | @cons b b₁ b₂ first qs _ step rest ih =>
    obtain ⟨hhead, htail⟩ := List.nodup_cons.mp hnodup
    obtain ⟨hnew, hrest⟩ := List.nodup_cons.mp hdistinct
    obtain ⟨n₁, hn₁, hbig₁⟩ := step.big
    have hle := step.drawn_le
    have hle' := rest.drawn_le
    have hne : ∀ q ∈ qs, q.req ≠ first.req := fun q hq heq =>
      hhead (heq ▸ List.mem_map_of_mem hq)
    have hids : ∀ q ∈ qs, (b₁.s.heap q.req).msgId = (b.s.heap q.req).msgId := fun q hq =>
      (step.ids_other (hne q hq)).1
    rcases List.mem_cons.mp hp with rfl | hp
    · have hothers := rest.others htail p.message.msgId fun q hq => by
        refine ⟨?_, fun heq => hnew (List.mem_map.mpr ⟨q, hq, heq.symm⟩)⟩
        rw [hids q hq]
        intro hqid heq
        have hqmem : q.req ∈ p.req :: qs.map Placed.req :=
          List.mem_cons_of_mem _ (List.mem_map_of_mem hq)
        rcases step.source hn hbig with ⟨-, hmsg, -⟩ | ⟨k, hk, -, hmsg⟩
        · exact hne q hq (hapart.stored _ hqmem _ (List.mem_cons_self ..) hqid
            (by rw [← heq, hmsg]))
        · exact hapart.clock _ hqmem hqid k hk (by rw [← hmsg, heq])
      obtain ⟨hsent, hacked, hresend⟩ := step.recorded
      exact ⟨fun hr => hothers.1.trans (hsent hr), fun ha => hothers.2.trans (hacked ha),
        fun hid => rest.toResend_none (hresend hid)⟩
    · have hheap : b₁.s.heap p.req = b.s.heap p.req :=
        step.heap_other (hne p hp) (hready p (List.mem_cons_of_mem _ hp)).unsent
      rw [← hheap]
      refine ih htail (fun q hq => step.ready (hne q hq) (hready q (List.mem_cons_of_mem _ hq)))
        hn₁ hbig₁ hn' (hrise.sub (by omega) (Nat.le_refl _))
        (hapart.sub (by omega) (List.subset_cons_self _ _) fun ref href => ?_) hp hrest
      obtain ⟨q, hq, rfl⟩ := List.mem_map.mp href
      exact hids q hq

/-! ### The list of the ids sent -/

theorem length_flatMap_idWords (ids : List MsgId) : (ids.flatMap idWords).length = 2 * ids.length := by
  rw [List.length_flatMap]
  simp only [length_idWords, List.map_const', List.sum_replicate, smul_eq_mul]
  exact Nat.mul_comm _ _

theorem idsOfWords_flatMap (ids : List MsgId) : idsOfWords (ids.flatMap idWords) = ids := by
  induction ids with
  | nil => rfl
  | cons id ids ih => rw [List.flatMap_cons, idsOfWords_idWords_append, ih]

theorem sentIds_haveSentIdsWrap (ids : List MsgId) (contMsgId : MsgId) :
    (haveSentIdsWrap ids ids.length contMsgId).sentIds = ids := by
  have hgap : (List.replicate (2 * ids.length) (0 : UInt32)).length =
      (ids.flatMap idWords).length := by
    rw [List.length_replicate, length_flatMap_idWords]
  have hwords := @overwrite_append _ (prepare (2 * ids.length)) _ _ [] hgap
  rw [List.append_nil, List.append_nil] at hwords
  have hwords' : overwrite (prepare (2 * ids.length) ++ List.replicate (2 * ids.length) 0)
      kMessageBodyPosition (ids.flatMap idWords) =
      prepare (2 * ids.length) ++ ids.flatMap idWords := hwords
  rw [haveSentIdsWrap, hwords', SecureRequestData.sentIds, SecureRequestData.body_setSeqNo]
  cases ids with
  | nil => rfl
  | cons id ids =>
    rw [SecureRequestData.body_setMsgId (by simp [SecureRequestData.size, prepare, idWords,
      kMessageBodyPosition])]
    exact idsOfWords_flatMap (id :: ids)

/-! ### The discipline -/

/-- No two requests to send again have one id. -/
def StoredOnce (s : Session) : Prop :=
  ∀ ref ∈ s.toSendRefs, ∀ ref' ∈ s.toSendRefs, (s.heap ref).msgId ≠ 0 →
    (s.heap ref).msgId = (s.heap ref').msgId → ref = ref'

/-- The clock gives none of the ids of the requests to send again. -/
def StoredApart (clock : Nat → MsgId) (s : Session) : Prop :=
  ∀ ref ∈ s.toSendRefs, (s.heap ref).msgId ≠ 0 → ∀ n, s.drawn ≤ n → clock n ≠ (s.heap ref).msgId

theorem msgId_serialize (body : List UInt32) : (serialize body).msgId = 0 := by
  have hlow : (prepare body.length ++ body).getD kMessageIdPosition 0 = 0 := rfl
  have hhigh : (prepare body.length ++ body).getD (kMessageIdPosition + 1) 0 = 0 := rfl
  rw [SecureRequestData.msgId, serialize, hlow, hhigh, idOfWords, UInt32.toNat_zero, Nat.zero_mul]
  rfl

theorem msgId_of_words {r r' : SecureRequestData} (hwords : r'.words = r.words) :
    r'.msgId = r.msgId := by
  rw [SecureRequestData.msgId, SecureRequestData.msgId, hwords]

theorem msgId_vectorRequest (typeId : UInt32) (ids : List MsgId) :
    (vectorRequest typeId ids).msgId = 0 := msgId_serialize _

theorem makeExtras_msgId {ref : Ref}
    (href : ref ∈ [options.fresh, options.fresh + 3, options.fresh + 2, options.fresh + 1,
      options.fresh + 4]) : ((s.makeExtras options).2.heap ref).msgId = 0 := by
  simp only [List.mem_cons, List.not_mem_nil, or_false] at href
  simp only [makeExtras, allocate, modifyRequest_heap]
  rcases href with rfl | rfl | rfl | rfl | rfl
  · have hping : (pingRequest options).msgId = 0 := by
      rw [pingRequest]
      split
      · exact (msgId_of_words rfl).trans (msgId_serialize _)
      · exact (msgId_of_words rfl).trans (msgId_serialize _)
    simpa using hping
  · exact (msgId_of_words (by simp)).trans
      (msgId_vectorRequest mtpc_msgs_state_req (s.stateRequest.toList.map Prod.fst))
  · exact (msgId_of_words (by simp)).trans
      (msgId_vectorRequest mtpc_msg_resend_req s.resendRequestData)
  · exact (msgId_of_words (by simp)).trans (msgId_vectorRequest mtpc_msgs_ack s.ackRequestData)
  · exact (msgId_of_words (by simp)).trans (msgId_serialize [mtpc_http_wait, 100, 30, 25000])

theorem Sendable.apart (h : s.Sendable options) (honce : s.StoredOnce)
    (hapart : s.StoredApart clock) :
    Apart clock s.drawn
      ((s.makeExtras options).2.beginContainer options clock (s.makeExtras options).1).s
      ((s.makeExtras options).2.placeOrder (s.makeExtras options).1) := by
  have hcases : ∀ ref ∈ (s.makeExtras options).2.placeOrder (s.makeExtras options).1,
      ((s.makeExtras options).2.heap ref).msgId ≠ 0 → ref ∈ s.toSendRefs ∧
        (s.makeExtras options).2.heap ref = s.heap ref := by
    intro ref href hid
    have hmem := (placeOrder_sublist s).subset href
    have hown : ref ∈ s.toSendRefs ∨ ref ∈ [options.fresh, options.fresh + 3, options.fresh + 2,
        options.fresh + 1, options.fresh + 4] := by
      simp only [List.mem_append, List.mem_cons, List.not_mem_nil, or_false] at hmem ⊢
      rcases hmem with h | h | h | h | h | h
      all_goals simp [h]
    rcases hown with hsend | hown
    · obtain ⟨requestId, hget⟩ := mem_toSendRefs.mp hsend
      exact ⟨hsend, makeExtras_heap (h.toSend requestId ref hget)⟩
    · exact absurd (makeExtras_msgId hown) hid
  refine ⟨fun ref href ref' href' hid heq => ?_, fun ref href hid n hn => ?_⟩
  · obtain ⟨hsend, hheap⟩ := hcases ref href hid
    obtain ⟨hsend', hheap'⟩ := hcases ref' href' (heq ▸ hid)
    exact honce ref hsend ref' hsend' (hheap ▸ hid) (hheap ▸ hheap' ▸ heq)
  · obtain ⟨hsend, hheap⟩ := hcases ref href hid
    have hclock := hapart ref hsend (hheap ▸ hid) n hn
    exact hheap ▸ hclock

/-- Two requests wait, the second with an id that the clock gives now. -/
def sentAgain : Session where
  heap := fun req =>
    { (serialize [1, 0]).setMsgId (if req = 1 then 100 else 0) with
      requestId := if req = 1 then 2 else 1 }
  toSend := ((∅ : Std.ExtTreeMap RequestId Ref).insert 1 0).insert 2 1

def sentAgainOptions : SendOptions := { now := 1, fresh := 2 }

/-- Rising ids from a first one. -/
def clockFrom (first n : Nat) : MsgId := UInt64.ofNat (first + 4 * n)

theorem rising_clockFrom {first stop : Nat} (h : first + 4 * stop < 2 ^ 64) :
    Rising (clockFrom first) 0 stop := by
  intro m n _ hmn hn
  rw [clockFrom, clockFrom, UInt64.lt_iff_toNat_lt, UInt64.toNat_ofNat', UInt64.toNat_ofNat']
  omega

theorem getElem?_sentAgain {requestId : RequestId} {req : Ref}
    (h : sentAgain.toSend[requestId]? = some req) :
    requestId = 1 ∧ req = 0 ∨ requestId = 2 ∧ req = 1 := by
  simp only [sentAgain, Std.ExtTreeMap.getElem?_insert, Std.LawfulEqCmp.compare_eq_iff_eq] at h
  split at h
  · next heq => exact .inr ⟨heq.symm, (Option.some.inj h).symm⟩
  · split at h
    · next heq => exact .inl ⟨heq.symm, (Option.some.inj h).symm⟩
    · simp at h

/-- What the sending of the two gives, with ids from 201 on and from 100 on. -/
theorem sentAgain_runs : sentAgain.toSendRefs = [0, 1] ∧
    (sentAgain.makeExtras sentAgainOptions).2.containerSize
      (sentAgain.makeExtras sentAgainOptions).1 sentAgainOptions.initSerialized.length +
        3 * sentAgain.toSend.size < 2 ^ 29 ∧
    (sentAgain.sendContainer sentAgainOptions (clockFrom 201)).s.drawn = 2 ∧
    (sentAgain.sendContainer sentAgainOptions (clockFrom 100)).s.drawn = 2 ∧
    (sentAgain.sendContainer sentAgainOptions (clockFrom 100)).haveSentArr = [100, 100] := by
  decide +kernel

theorem serialized_sentAgain (req : Ref) : (sentAgain.heap req).Serialized := by
  have hserialized := serialized_serialize (List.cons_ne_nil 1 [0]) (by simp)
  refine serialized_of_words (hserialized.identify (if req = 1 then 100 else 0) 0) ?_
  rfl

theorem sendable_sentAgain : sentAgain.Sendable sentAgainOptions where
  key requestId req h := by
    rcases getElem?_sentAgain h with ⟨rfl, rfl⟩ | ⟨rfl, rfl⟩
    · exact ⟨rfl, by decide⟩
    · exact ⟨rfl, by decide⟩
  serialized _ req _ := serialized_sentAgain req
  unsent _ _ _ id h := by simp [sentAgain] at h
  toSend requestId req h := by
    rcases getElem?_sentAgain h with ⟨-, rfl⟩ | ⟨-, rfl⟩
    · exact Nat.zero_lt_two
    · exact Nat.one_lt_two
  haveSent id req h := by simp [sentAgain] at h
  acks := by simp [sentAgain]
  resends := by simp [sentAgain]
  states := by simp [sentAgain]

theorem msgId_sentAgain (req : Ref) :
    (sentAgain.heap req).msgId = if req = 1 then 100 else 0 := by
  have hserialized := serialized_serialize (List.cons_ne_nil 1 [0]) (by simp)
  exact SecureRequestData.msgId_setMsgId hserialized.size _

theorem eq_one_of_msgId_sentAgain {req : Ref} (h : (sentAgain.heap req).msgId ≠ 0) : req = 1 := by
  by_contra hne
  rw [msgId_sentAgain, if_neg hne] at h
  exact h rfl

theorem storedOnce_sentAgain : sentAgain.StoredOnce := by
  intro ref _ ref' _ hid heq
  have hid' : (sentAgain.heap ref').msgId ≠ 0 := heq ▸ hid
  exact (eq_one_of_msgId_sentAgain hid).trans (eq_one_of_msgId_sentAgain hid').symm

theorem Sendable.nodup_haveSentArr (h : s.Sendable options) {messages : List Message}
    (hd : Disciplined s (s.sendContainer options clock) messages) :
    (s.sendContainer options clock).haveSentArr.Nodup := by
  have hsent := h.finished clock
  have hsends := h.sends clock
  obtain ⟨wrap, hwrap, hids⟩ := hd.sentIds
  rw [hsent.haveSent, hsent.contMsgId, Std.ExtTreeMap.getElem?_insert_self] at hwrap
  obtain rfl := Option.some.inj hwrap
  have hlength : ((s.makeExtras options).2.placeAll options clock
      (s.makeExtras options).1).haveSentArr.length = ((s.makeExtras options).2.containerPlaced
        options clock (s.makeExtras options).1).length := by
    rw [hsends.run.haveSentArr, List.length_append, List.length_map]
    exact Nat.zero_add _
  rw [hsent.wrap, ← hlength, sentIds_haveSentIdsWrap] at hids
  rw [hsent.haveSentArr, hids]
  exact hd.distinct

end TelegramClient.Mtproto.Session
