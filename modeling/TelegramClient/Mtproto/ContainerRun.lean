import Mathlib
import TelegramClient.Mtproto.ContainerWriting

/-! A whole container as one run of placements. -/

namespace TelegramClient.Mtproto.Session

variable {options : SendOptions} {clock : Nat → MsgId} {s : Session}

/-- The requests to send lie under their ids and are whole; what was sent, also in a
container, is no longer among them. New places are free. -/
structure Sendable (options : SendOptions) (s : Session) : Prop where
  key : ∀ (requestId : RequestId) (req : Ref), s.toSend[requestId]? = some req →
    (s.heap req).requestId = requestId ∧ requestId ≠ 0
  serialized : ∀ (requestId : RequestId) (req : Ref), s.toSend[requestId]? = some req →
    (s.heap req).Serialized
  unsent : ∀ (requestId : RequestId) (req : Ref), s.toSend[requestId]? = some req → s.Unsent req
  toSend : ∀ (requestId : RequestId) (req : Ref), s.toSend[requestId]? = some req →
    req < options.fresh
  haveSent : ∀ (id : MsgId) (req : Ref), s.haveSent[id]? = some req → req < options.fresh
  acks : s.ackRequestData.length < 2 ^ 28
  resends : s.resendRequestData.length < 2 ^ 28
  states : s.stateRequest.size < 2 ^ 28

/-! ### The requests of the session itself -/

theorem serialized_serialize {body : List UInt32} (hpos : body ≠ [])
    (hlt : body.length < 2 ^ 30) : (serialize body).Serialized := by
  have hbody := List.length_pos_of_ne_nil hpos
  have hsize : (serialize body).size = 8 + body.length := by
    rw [SecureRequestData.size, serialize, prepare, List.length_append]
    rfl
  have hinner : (serialize body).innerLength = UInt32.ofNat (4 * body.length) := by
    rw [SecureRequestData.innerLength, if_neg (by rw [hsize, kMessageBodyPosition]; omega)]
    rfl
  have hlength : (serialize body).innerLength.toNat = 4 * body.length := by
    rw [hinner, UInt32.toNat_ofNat']
    omega
  have hints : (serialize body).lenInInts = body.length := by
    rw [SecureRequestData.lenInInts, hlength]
    omega
  refine ⟨?_, ?_, ?_⟩
  · rw [hlength, hints]
  · rw [hints]
    exact hbody
  · rw [hints, hsize, kMessageBodyPosition]

theorem serialized_of_words {r r' : SecureRequestData} (h : r.Serialized)
    (hwords : r'.words = r.words) : r'.Serialized := by
  have hlength : r'.innerLength = r.innerLength := by
    rw [SecureRequestData.innerLength, SecureRequestData.innerLength, SecureRequestData.size,
      SecureRequestData.size, hwords]
  refine ⟨?_, ?_, ?_⟩
  · rw [SecureRequestData.lenInInts, hlength]
    exact h.length
  · rw [SecureRequestData.lenInInts, hlength]
    exact h.pos
  · rw [SecureRequestData.lenInInts, hlength, SecureRequestData.size, hwords]
    exact h.le

theorem makeExtras_heap {ref : Ref} (href : ref < options.fresh) :
    (s.makeExtras options).2.heap ref = s.heap ref := by
  have hne : ∀ i, ref ≠ options.fresh + i := fun i =>
    Nat.ne_of_lt (Nat.lt_of_lt_of_le href (Nat.le_add_right _ i))
  simp only [makeExtras, allocate]
  rw [modifyRequest_heap, if_neg (hne 4), modifyRequest_heap, if_neg (hne 3), modifyRequest_heap,
    if_neg (hne 2), modifyRequest_heap, if_neg (hne 1), modifyRequest_heap, if_neg (Nat.ne_of_lt href)]

theorem serialized_pingRequest (options : SendOptions) : (pingRequest options).Serialized := by
  rw [pingRequest]
  split
  · exact serialized_of_words (serialized_serialize (List.cons_ne_nil _ _) (by simp)) rfl
  · exact serialized_of_words (serialized_serialize (List.cons_ne_nil _ _) (by simp)) rfl

theorem serialized_vectorRequest {ids : List MsgId} (h : ids.length < 2 ^ 28)
    (typeId : UInt32) : (vectorRequest typeId ids).Serialized := by
  have hids : (ids.flatMap idWords).length = 2 * ids.length := by
    rw [List.length_flatMap]
    simp only [length_idWords, List.map_const', List.sum_replicate, smul_eq_mul]
    exact Nat.mul_comm _ _
  refine serialized_serialize (List.cons_ne_nil _ _) ?_
  rw [List.cons_append, List.length_cons, List.length_append, hids, List.length_cons,
    List.length_singleton]
  omega

theorem makeExtras_serialized (h : s.Sendable options) {ref : Ref}
    (href : ref ∈ [options.fresh, options.fresh + 3, options.fresh + 2, options.fresh + 1,
      options.fresh + 4]) : ((s.makeExtras options).2.heap ref).Serialized := by
  have hstates : (s.stateRequest.toList.map Prod.fst).length < 2 ^ 28 := by
    rw [List.length_map, Std.ExtTreeMap.length_toList]
    exact h.states
  simp only [List.mem_cons, List.not_mem_nil, or_false] at href
  simp only [makeExtras, allocate, modifyRequest_heap]
  rcases href with rfl | rfl | rfl | rfl | rfl
  · simpa using serialized_pingRequest options
  · exact serialized_of_words (serialized_vectorRequest hstates mtpc_msgs_state_req) (by simp)
  · exact serialized_of_words (serialized_vectorRequest h.resends mtpc_msg_resend_req) (by simp)
  · exact serialized_of_words (serialized_vectorRequest h.acks mtpc_msgs_ack) (by simp)
  · exact serialized_of_words (serialized_serialize (List.cons_ne_nil _ _)
      (by simp : [mtpc_http_wait, 100, 30, 25000].length < 2 ^ 30)) (by simp)

/-! ### The order of the messages -/

def placeOrder (s : Session) (e : Extras) : List Ref :=
  e.ping.toList ++ (s.toSendRefs ++ (e.state.toList ++ (e.resend.toList ++ (e.ack.toList ++
    e.httpWait.toList))))

theorem mem_toSendRefs {req : Ref} :
    req ∈ s.toSendRefs ↔ ∃ requestId : RequestId, s.toSend[requestId]? = some req :=
  Std.ExtTreeMap.mem_map_snd_toList

theorem Sendable.nodup_toSendRefs (h : s.Sendable options) : s.toSendRefs.Nodup := by
  refine List.Nodup.map_on ?_ s.toSend.nodup_toList
  rintro ⟨requestId, req⟩ hreq ⟨requestId', req'⟩ hreq' heq
  have hkey := (h.key requestId req (Std.ExtTreeMap.mem_toList_iff_getElem?_eq_some.mp hreq)).1
  have hkey' := (h.key requestId' req' (Std.ExtTreeMap.mem_toList_iff_getElem?_eq_some.mp hreq')).1
  obtain rfl : req = req' := heq
  rw [← hkey, hkey']

theorem toList_ite_sublist (c : Prop) [Decidable c] (req : Ref) :
    (if c then some req else none).toList.Sublist [req] := by
  split
  · exact List.Sublist.refl _
  · exact List.nil_sublist _

theorem placeOrder_sublist (s : Session) :
    ((s.makeExtras options).2.placeOrder (s.makeExtras options).1).Sublist
      ([options.fresh] ++ (s.toSendRefs ++ ([options.fresh + 3] ++ ([options.fresh + 2] ++
        ([options.fresh + 1] ++ [options.fresh + 4]))))) :=
  (toList_ite_sublist _ _).append ((List.Sublist.refl _).append ((toList_ite_sublist _ _).append
    ((toList_ite_sublist _ _).append ((toList_ite_sublist _ _).append (toList_ite_sublist _ _)))))

theorem Sendable.nodup_placeOrder (h : s.Sendable options) :
    ((s.makeExtras options).2.placeOrder (s.makeExtras options).1).Nodup := by
  refine (placeOrder_sublist s).nodup ?_
  have hlt : ∀ ref ∈ s.toSendRefs, ref < options.fresh := by
    intro ref href
    obtain ⟨requestId, hget⟩ := mem_toSendRefs.mp href
    exact h.toSend requestId ref hget
  have hown : ([options.fresh + 3] ++ ([options.fresh + 2] ++ ([options.fresh + 1] ++
      [options.fresh + 4]))).Nodup := by simp
  have hle : ∀ ref ∈ [options.fresh + 3] ++ ([options.fresh + 2] ++ ([options.fresh + 1] ++
      [options.fresh + 4])), options.fresh < ref := by simp
  rw [List.singleton_append]
  refine List.nodup_cons.mpr ⟨?_, List.nodup_append.mpr ⟨h.nodup_toSendRefs, hown, ?_⟩⟩
  · rw [List.mem_append, not_or]
    exact ⟨fun hmem => Nat.lt_irrefl _ (hlt _ hmem), fun hmem => Nat.lt_irrefl _ (hle _ hmem)⟩
  · rintro ref href ref' href' rfl
    exact Nat.lt_asymm (hlt ref href) (hle ref href')

variable (clock) in
theorem Sendable.ready (h : s.Sendable options) (ref : Ref)
    (href : ref ∈ (s.makeExtras options).2.placeOrder (s.makeExtras options).1) :
    Ready clock ((s.makeExtras options).2.beginContainer options clock (s.makeExtras options).1)
      ref := by
  have hmem := (placeOrder_sublist s).subset href
  have hfree : ∀ ref, options.fresh ≤ ref → s.Unsent ref := fun ref hle id hget =>
    Nat.not_lt.mpr hle (h.haveSent id ref hget)
  have hcases : ref ∈ s.toSendRefs ∨ ref ∈ [options.fresh, options.fresh + 3, options.fresh + 2,
      options.fresh + 1, options.fresh + 4] := by
    simp only [List.mem_append, List.mem_cons, List.not_mem_nil, or_false] at hmem ⊢
    rcases hmem with h | h | h | h | h | h
    all_goals simp [h]
  refine ⟨?_, ?_, ⟨s.drawn, rfl, rfl⟩, by simp [beginContainer, prepare]⟩
  · rcases hcases with hsend | hown
    · obtain ⟨requestId, hget⟩ := mem_toSendRefs.mp hsend
      have hheap := makeExtras_heap (s := s) (h.toSend requestId ref hget)
      exact hheap ▸ h.serialized requestId ref hget
    · exact makeExtras_serialized h hown
  · rcases hcases with hsend | hown
    · obtain ⟨requestId, hget⟩ := mem_toSendRefs.mp hsend
      exact h.unsent requestId ref hget
    · refine hfree ref ?_
      simp only [List.mem_cons, List.not_mem_nil, or_false] at hown
      rcases hown with rfl | rfl | rfl | rfl | rfl
      · exact Nat.le_refl _
      all_goals exact Nat.le_add_right _ _

/-! ### The run -/

/-- The placements made so far and the requests that are still to be placed. -/
structure Built (clock : Nat → MsgId) (b₀ b : Building) (ps : List Placed) (todo : List Ref) :
    Prop where
  run : Placements clock b₀ ps b
  nodup : (ps.map Placed.req ++ todo).Nodup
  ready : ∀ ref ∈ todo, Ready clock b₀ ref

section

variable {b₀ b b' : Building} {ps qs : List Placed} {refs todo : List Ref}

theorem Built.ready_now (h : Built clock b₀ b ps todo) {ref : Ref} (href : ref ∈ todo) :
    Ready clock b ref ∧ b.s.heap ref = b₀.s.heap ref := by
  refine h.run.ready (fun hmem => ?_) (h.ready ref href)
  exact (List.nodup_append.mp h.nodup).2.2 ref hmem ref href rfl

theorem Built.add (h : Built clock b₀ b ps (refs ++ todo)) (hreq : qs.map Placed.req = refs)
    (hrun : (∀ ref ∈ refs, Ready clock b ref) → Placements clock b qs b') :
    Built clock b₀ b' (ps ++ qs) todo where
  run := h.run.append (hrun fun _ href => (h.ready_now (List.mem_append_left _ href)).1)
  nodup := by
    rw [List.map_append, hreq, List.append_assoc]
    exact h.nodup
  ready ref href := h.ready ref (List.mem_append_right _ href)

theorem extraPlaced_req (b : Building) (recorded : Bool) (req : Option Ref) :
    (b.extraPlaced clock recorded req).map Placed.req = req.toList := by
  cases req with
  | none => rfl
  | some req => rfl

theorem placements_ping (req : Option Ref) (h : ∀ ref ∈ req.toList, Ready clock b ref) :
    Placements clock b (b.extraPlaced clock false req) (b.placePing clock req) := by
  cases req with
  | none => exact .nil b
  | some req =>
    have hready := h req (List.mem_singleton_self req)
    exact .one hready hready.placePing

theorem placements_state (req : Option Ref) (h : ∀ ref ∈ req.toList, Ready clock b ref) :
    Placements clock b (b.extraPlaced clock true req) (b.placeState clock req) := by
  cases req with
  | none => exact .nil b
  | some req =>
    have hready := h req (List.mem_singleton_self req)
    exact .one hready hready.placeState

theorem placements_place (req : Option Ref) (h : ∀ ref ∈ req.toList, Ready clock b ref) :
    Placements clock b (b.extraPlaced clock false req) (b.place clock req) := by
  cases req with
  | none => exact .nil b
  | some req =>
    have hready := h req (List.mem_singleton_self req)
    exact .one hready hready.place

end

/-- What is placed for a request of the session itself has nothing put in front. -/
structure OwnPlaced (p : Placed) : Prop where
  wrap : p.wrap = []
  grown : p.grown = 0

theorem ownPlaced_extra {b : Building} {recorded : Bool} {req : Option Ref} {p : Placed}
    (hp : p ∈ b.extraPlaced clock recorded req) : OwnPlaced p ∧ p.req ∈ req.toList := by
  cases req with
  | none => cases hp
  | some req =>
    rw [Building.extraPlaced, Option.map_some, Option.toList_some, List.mem_singleton] at hp
    subst hp
    exact ⟨⟨rfl, rfl⟩, List.mem_singleton_self req⟩

theorem placements_container (e : Extras) (hnodup : (s.placeOrder e).Nodup)
    (hready : ∀ ref ∈ s.placeOrder e, Ready clock (s.beginContainer options clock e) ref) :
    Placements clock (s.beginContainer options clock e) (s.containerPlaced options clock e)
        (s.placeAll options clock e) ∧
      (s.containerPlaced options clock e).map Placed.req = s.placeOrder e ∧
      ∀ p ∈ s.containerPlaced options clock e,
        p.req ∈ s.toSendRefs ∧ RequestPlaced options s p ∨
          p.req ∉ s.toSendRefs ∧ OwnPlaced p := by
  have h₀ : Built clock (s.beginContainer options clock e) (s.beginContainer options clock e) []
      (s.placeOrder e) := ⟨.nil _, hnodup, hready⟩
  have h₁ := h₀.add (extraPlaced_req _ false e.ping) (placements_ping e.ping)
  have hrequests := placements_requests options clock
    (List.nodup_append.mp (List.nodup_append.mp h₁.nodup).2.1).1
    fun ref href => (h₁.ready_now (List.mem_append_left _ href)).1
  have h₂ := h₁.add (requestsPlaced_req _ _ _ s.toSendRefs) fun _ => hrequests.1
  have h₃ := h₂.add (extraPlaced_req _ true e.state) (placements_state e.state)
  have h₄ := h₃.add (extraPlaced_req _ false e.resend) (placements_place e.resend)
  have h₅ := h₄.add (extraPlaced_req _ false e.ack) (placements_place e.ack)
  rw [← List.append_nil e.httpWait.toList] at h₅
  have h₆ := h₅.add (extraPlaced_req _ false e.httpWait) (placements_place e.httpWait)
  refine ⟨h₆.run, ?_, ?_⟩
  · simp only [containerPlaced, List.map_append, extraPlaced_req, requestsPlaced_req, placeOrder,
      List.append_assoc]
  · obtain ⟨-, hrest, hping⟩ := List.nodup_append.mp hnodup
    obtain ⟨-, -, hdisjoint⟩ := List.nodup_append.mp hrest
    have hfirst : ∀ ref ∈ e.ping.toList, ref ∉ s.toSendRefs := fun ref href hmem =>
      hping ref href ref (List.mem_append_left _ hmem) rfl
    have hafter : ∀ ref ∈ e.state.toList ++ (e.resend.toList ++ (e.ack.toList ++
        e.httpWait.toList)), ref ∉ s.toSendRefs := fun ref href hmem =>
      hdisjoint ref hmem ref href rfl
    intro p hp
    simp only [containerPlaced, List.mem_append] at hp
    rcases hp with ((((hp | hp) | hp) | hp) | hp) | hp
    · obtain ⟨hown, hreq⟩ := ownPlaced_extra hp
      exact .inr ⟨hfirst _ hreq, hown⟩
    · have hreq : p.req ∈ s.toSendRefs := by
        rw [← requestsPlaced_req options clock _ s.toSendRefs]
        exact List.mem_map_of_mem hp
      have hnow := h₁.ready_now (List.mem_append_left _ hreq)
      exact .inl ⟨hreq, (hrequests.2 p hp).congr hnow.2 h₁.run.inited⟩
    · obtain ⟨hown, hreq⟩ := ownPlaced_extra hp
      exact .inr ⟨hafter _ (by simp [hreq]), hown⟩
    · obtain ⟨hown, hreq⟩ := ownPlaced_extra hp
      exact .inr ⟨hafter _ (by simp [hreq]), hown⟩
    · obtain ⟨hown, hreq⟩ := ownPlaced_extra hp
      exact .inr ⟨hafter _ (by simp [hreq]), hown⟩
    · obtain ⟨hown, hreq⟩ := ownPlaced_extra hp
      exact .inr ⟨hafter _ (by simp [hreq]), hown⟩

end TelegramClient.Mtproto.Session
