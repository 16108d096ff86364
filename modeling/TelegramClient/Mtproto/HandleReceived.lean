import TelegramClient.Mtproto.Responses
import TelegramClient.Mtproto.Strings

/-! What is read of a message that was received (`mtproto/connection.cpp`). A range of words is a
list: readers that test its end get no other words, and an access that is not tested is `outside`
where there is no word. -/

namespace TelegramClient.Mtproto.Received

def mtpc_rpc_result : UInt32 := 0xf35c6d01

def mtpc_bad_server_salt : UInt32 := 0xedab447b

def mtpc_new_session_created : UInt32 := 0x9ec20908

def mtpc_pong : UInt32 := 0x347773c5

def kMaxMessageLength : UInt32 := 16 * 1024 * 1024

def kMinimalEncryptedIntsCount : Nat := 8 + 4

inductive HandleResult where
  | success
  | ignored
  | restartConnection
  | resetSession
  deriving DecidableEq

inductive Outcome (σ : Type) where
  | outside
  | tooDeep
  | done (result : HandleResult) (s : σ)

/-- What comes of a message, with the ranges that were handled for it. -/
structure Handled (σ : Type) where
  ranges : List (List UInt32)
  outcome : Outcome σ

structure Call where
  range : List UInt32
  msgId : UInt64
  serverTime : Int32
  serverSalt : UInt64
  badTime : Bool

/-- The session and the libraries: what is done with the words that were read. -/
structure Connection (σ Msg : Type) where
  inflate : List UInt8 → Option (List UInt32)
  readMessage : UInt32 → List UInt32 → Except ReadError (Msg × List UInt32)
  react : Call → Msg → List UInt32 → σ → HandleResult × σ
  registerMsgId : UInt64 → Bool → σ → Bool × σ
  ack : UInt64 → σ → σ
  wasSent : σ → UInt64 → Int32
  fixTimeSalt : Int32 → UInt64 → σ → σ
  requestsAcked : UInt64 → σ → σ
  notifyInited : σ → σ
  haveReceivedResponse : Int32 → List UInt32 → σ → σ
  haveReceivedUpdate : List UInt32 → σ → σ
  regularDc : Bool
  session : σ → UInt64
  badTime : Int32 → σ → Bool
  checkSalt : UInt64 → Bool → σ → UInt64 × σ

def long (low high : UInt32) : UInt64 := low.toUInt64 ||| (high.toUInt64 <<< 32)

/-- The id of a message from the server is that of a reply, or another odd one. -/
def goodMsgId (msgId : UInt64) : Bool := msgId &&& 0x03 = 1 || msgId &&& 0x03 = 3

/-- The constructors that are read whole by a reader of their own. -/
def serviceMessages : List UInt32 :=
  [mtpc_msgs_ack, mtpc_bad_msg_notification, mtpc_bad_server_salt, mtpc_msgs_state_req,
    mtpc_msgs_state_info, mtpc_msgs_all_info, mtpc_msg_detailed_info, mtpc_msg_new_detailed_info,
    mtpc_msg_resend_req, mtpc_new_session_created, mtpc_ping, mtpc_pong]

def skippedWithBadTime : List UInt32 :=
  [mtpc_msgs_state_req, mtpc_msgs_all_info, mtpc_msg_new_detailed_info, mtpc_ping]

variable {σ Msg : Type} (conn : Connection σ Msg)

/-- The packed bytes are read as a string, and no words are those that cannot be unpacked. -/
def ungzip (words : List UInt32) : Except ReadError (List UInt32) := do
  let (packed, _) ← MTPstring.read mtpc_string words
  pure ((conn.inflate packed).getD [])

def requestsFixTimeSalt (ids : List UInt64) (serverTime : Int32) (serverSalt : UInt64) (s : σ) :
    Bool × σ :=
  if ids.any fun id => conn.wasSent s id ≠ 0 then (true, conn.fixTimeSalt serverTime serverSalt s)
  else (false, s)

def done (result : HandleResult) (s : σ) : Handled σ := ⟨[], .done result s⟩

/-- A word is read where there is none. -/
def outside : Handled σ := ⟨[], .outside⟩

/-- An exception ends the handling of its range. -/
def insufficient (s : σ) : Handled σ := done .restartConnection s

/-- What follows in a container, after a message of it. -/
def Handled.andThen (h : Handled σ) (next : σ → Handled σ) : Handled σ :=
  match h.outcome with
  | .done .success s => ⟨h.ranges ++ (next s).ranges, (next s).outcome⟩
  | _ => h

/-- The loop over the messages of a container. -/
def handleContainer (inner : Call → σ → Handled σ) : Nat → Call → σ → Handled σ
  | 0, _, s => done .success s
  | count + 1, c, s =>
    if c.range.length ≤ 4 then insufficient s
    else
      match c.range with
      | low :: high :: inSeqNo :: bytes :: rest =>
        let inMsgId := long low high
        if !goodMsgId inMsgId then done .restartConnection s
        else if bytes &&& 0x03 ≠ 0 ∨ bytes.toInt32 < 4 then done .restartConnection s
        else
          let needAck := inSeqNo &&& 0x01 ≠ 0
          let s := if needAck then conn.ack inMsgId s else s
          let size := (bytes >>> 2).toNat
          if rest.length < size then insufficient s
          else
            let (needToHandle, s) := conn.registerMsgId inMsgId needAck s
            let next := { c with range := rest.drop size }
            if needToHandle then
              (inner { c with range := rest.take size, msgId := inMsgId } s).andThen fun s =>
                handleContainer inner count { next with badTime := false } s
            else handleContainer inner count next s
      | _ => outside

/-- A response to a request. Its words are tested for three of them. -/
def handleRpcResult (c : Call) (s : σ) : Handled σ :=
  if c.range.length < 3 then insufficient s
  else
    match c.range with
    | _ :: low :: high :: rest =>
      let reqMsgId := long low high
      match rest with
      | [] => outside
      | typeId :: packed =>
        let (fixed, s) :=
          if c.badTime then requestsFixTimeSalt conn [reqMsgId] c.serverTime c.serverSalt s
          else (true, s)
        if !fixed then done .ignored s
        else
          let s := conn.requestsAcked reqMsgId s
          let response := if typeId = mtpc_gzip_packed then ungzip conn packed else .ok rest
          match response with
          | .error _ => insufficient s
          | .ok [] => done .restartConnection s
          | .ok (typeId :: response) =>
            let s := if typeId ≠ mtpc_rpc_error then conn.notifyInited s else s
            let requestId := conn.wasSent s reqMsgId
            done .success (if requestId ≠ 0 ∧ requestId ≠ -1 then
              conn.haveReceivedResponse requestId (typeId :: response) s else s)
    | _ => outside

/-- A constructor of its own reader; the words that it took are known afterwards. -/
def handleService (cons : UInt32) (c : Call) (s : σ) : Handled σ :=
  if c.badTime ∧ cons ∈ skippedWithBadTime then done .ignored s
  else
    match conn.readMessage cons c.range with
    | .error _ => insufficient s
    | .ok (msg, rest) =>
      let (result, s) := conn.react c msg (c.range.take (c.range.length - rest.length)) s
      done result s

def handleUpdates (c : Call) (s : σ) : Handled σ :=
  if c.badTime then done .resetSession s
  else done .success (if conn.regularDc then conn.haveReceivedUpdate c.range s else s)

/-- Messages in messages are handled up to a depth. -/
def handleOneReceived : Nat → Call → σ → Handled σ
  | 0, _, _ => ⟨[], .tooDeep⟩
  | depth + 1, c, s =>
    let h :=
      match c.range with
      | [] => outside
      | cons :: rest =>
        if cons = mtpc_gzip_packed then
          match ungzip conn rest with
          | .error _ => insufficient s
          | .ok [] => done .restartConnection s
          | .ok (word :: response) => handleOneReceived depth { c with range := word :: response } s
        else if cons = mtpc_msg_container then
          match rest with
          | [] => insufficient s
          | msgsCount :: messages =>
            handleContainer conn (handleOneReceived depth) msgsCount.toNat
              { c with range := messages } s
        else if cons = mtpc_rpc_result then handleRpcResult conn c s
        else if cons ∈ serviceMessages then handleService conn cons c s
        else handleUpdates conn c s
    ⟨c.range :: h.ranges, h.outcome⟩

/-- A plaintext that passed the check of its key. -/
def handleReceived (depth : Nat) (decryptedInts : List UInt32) (s : σ) : Handled σ :=
  if decryptedInts.length < kMinimalEncryptedIntsCount then done .restartConnection s
  else
    match decryptedInts with
    | salt₀ :: salt₁ :: session₀ :: session₁ :: id₀ :: id₁ :: seqNo :: messageLength :: data =>
      let fullDataLength := 32 + messageLength
      let paddingSize := UInt32.ofNat (4 * decryptedInts.length) - fullDataLength
      let msgId := long id₀ id₁
      if messageLength > kMaxMessageLength then done .restartConnection s
      else if paddingSize < 12 ∨ paddingSize > 1024 ∨ messageLength &&& 0x03 ≠ 0 then
        done .restartConnection s
      else if long session₀ session₁ ≠ conn.session s then done .restartConnection s
      else if !goodMsgId msgId then done .restartConnection s
      else
        let serverTime := id₁.toInt32
        let badTime := conn.badTime serverTime s
        let needAck := seqNo &&& 0x01 ≠ 0
        let (serverSalt, s) := conn.checkSalt (long salt₀ salt₁) badTime s
        let s := if needAck then conn.ack msgId s else s
        let (needToHandle, s) := conn.registerMsgId msgId needAck s
        let size := (messageLength / 4).toNat
        if data.length < size then outside
        else if needToHandle then
          handleOneReceived conn depth ⟨data.take size, msgId, serverTime, serverSalt, badTime⟩ s
        else done .success s
    | _ => outside

/-- Three words are enough for the test of a response, which has the fourth one read. -/
def ShortResult (range : List UInt32) : Prop :=
  range.length = 3 ∧ range.head? = some mtpc_rpc_result

/-- The messages in a message have words, and its handling is as good as each of theirs. -/
structure Exact (h : Handled σ) : Prop where
  nonempty : ∀ range ∈ h.ranges, range ≠ []
  outside : h.outcome = .outside ↔ ∃ range ∈ h.ranges, ShortResult range

section
variable {conn} {inner : Call → σ → Handled σ} {h : Handled σ} {next : σ → Handled σ} {c : Call}
  {s : σ} {range : List UInt32}

theorem exact_done (result : HandleResult) (s : σ) : Exact (done result s) where
  nonempty _ hrange := nomatch hrange
  outside := by
    constructor
    · intro h
      cases h
    · rintro ⟨_, hrange, _⟩
      cases hrange

theorem Exact.andThen (hh : Exact h) (hnext : ∀ s, Exact (next s)) : Exact (h.andThen next) := by
  obtain ⟨ranges, outcome⟩ := h
  rcases outcome with _ | _ | ⟨result, s⟩
  · exact hh
  · exact hh
  · cases result
    case success =>
      have hfirst : ¬∃ range ∈ ranges, ShortResult range := by
        intro h
        cases hh.outside.mpr h
      constructor
      · intro range hrange
        rcases List.mem_append.mp hrange with hrange | hrange
        · exact hh.nonempty range hrange
        · exact (hnext s).nonempty range hrange
      · change (next s).outcome = .outside ↔ ∃ range ∈ ranges ++ (next s).ranges, _
        rw [(hnext s).outside]
        constructor
        · rintro ⟨range, hrange, hshort⟩
          exact ⟨range, List.mem_append_right ranges hrange, hshort⟩
        · rintro ⟨range, hrange, hshort⟩
          rcases List.mem_append.mp hrange with hrange | hrange
          · exact absurd ⟨range, hrange, hshort⟩ hfirst
          · exact ⟨range, hrange, hshort⟩
    all_goals exact hh

theorem Exact.of_not_shortResult (hh : Exact h) (hrange : range ≠ []) (hlong : ¬ShortResult range) :
    Exact (⟨range :: h.ranges, h.outcome⟩ : Handled σ) where
  nonempty := by
    intro other hother
    rcases List.mem_cons.mp hother with rfl | hother
    · exact hrange
    · exact hh.nonempty other hother
  outside := by
    rw [hh.outside]
    simp only [List.mem_cons, exists_eq_or_imp, hlong, false_or]

theorem Exact.inside (hh : Exact h) :
    h.outcome ≠ .outside ↔ ∀ range ∈ h.ranges, range ≠ [] ∧ ¬ShortResult range := by
  rw [Ne, hh.outside]
  constructor
  · intro hlong range hrange
    exact ⟨hh.nonempty range hrange, fun hshort => hlong ⟨range, hrange, hshort⟩⟩
  · rintro hlong ⟨range, hrange, hshort⟩
    exact (hlong range hrange).2 hshort

theorem exact_tooDeep : Exact (⟨[], .tooDeep⟩ : Handled σ) where
  nonempty _ hrange := nomatch hrange
  outside := by
    constructor
    · intro h
      cases h
    · rintro ⟨_, hrange, _⟩
      cases hrange

theorem size_pos {bytes : UInt32} (hbytes : ¬(bytes &&& 0x03 ≠ 0 ∨ bytes.toInt32 < 4)) :
    0 < (bytes >>> 2).toNat := by
  have hlow : ¬bytes.toInt32 < 4 := fun h => hbytes (.inr h)
  rw [Int32.lt_iff_toInt_lt] at hlow
  have hint : bytes.toInt32.toInt = bytes.toBitVec.toInt := rfl
  have hfour : (4 : Int32).toInt = 4 := rfl
  have hnat : bytes.toBitVec.toNat = bytes.toNat := rfl
  have hshift : (bytes >>> 2).toNat = bytes.toNat / 4 := by
    rw [UInt32.toNat_shiftRight]
    exact Nat.shiftRight_eq_div_pow _ _
  rw [hint, hfour, BitVec.toInt_eq_toNat_cond, hnat] at hlow
  rw [hshift]
  split at hlow <;> omega

theorem handleContainer_exact (hinner : ∀ c s, c.range ≠ [] → Exact (inner c s)) (count : Nat)
    (c : Call) (s : σ) : Exact (handleContainer conn inner count c s) := by
  induction count generalizing c s with
  | zero => exact exact_done .success s
  | succ count ih =>
    rw [handleContainer]
    by_cases hshort : c.range.length ≤ 4
    · rw [if_pos hshort]
      exact exact_done _ _
    rw [if_neg hshort]
    obtain ⟨range, msgId, serverTime, serverSalt, badTime⟩ := c
    match range, hshort with
    | low :: high :: inSeqNo :: bytes :: rest, _ =>
      dsimp only
      by_cases hid : (!goodMsgId (long low high)) = true
      · rw [if_pos hid]
        exact exact_done _ _
      rw [if_neg hid]
      by_cases hbytes : bytes &&& 0x03 ≠ 0 ∨ bytes.toInt32 < 4
      · rw [if_pos hbytes]
        exact exact_done _ _
      rw [if_neg hbytes]
      have hsize := size_pos hbytes
      by_cases hend : rest.length < (bytes >>> 2).toNat
      · rw [if_pos hend]
        exact exact_done _ _
      rw [if_neg hend]
      generalize (if inSeqNo &&& 0x01 ≠ 0 then conn.ack (long low high) s else s) = acked
      split
      · refine Exact.andThen (hinner _ _ ?_) (fun s => ih _ s)
        intro hempty
        have hlength := congrArg List.length hempty
        rw [List.length_take, List.length_nil] at hlength
        omega
      · exact ih _ _
    | [], h | [_], h | [_, _], h | [_, _, _], h => exact absurd (by simp) h

/-- The words of a response behind its first four are tested. -/
theorem handleRpcResult_done (conn : Connection σ Msg) (hlong : 3 < c.range.length) (s : σ) :
    ∃ result t, handleRpcResult conn c s = done result t := by
  rw [handleRpcResult, if_neg (by omega)]
  obtain ⟨range, msgId, serverTime, serverSalt, badTime⟩ := c
  match range, hlong with
  | _ :: low :: high :: typeId :: packed, _ =>
    dsimp only
    generalize (if badTime = true then
      requestsFixTimeSalt conn [long low high] serverTime serverSalt s else (true, s)) = fixed
    split
    · exact ⟨_, _, rfl⟩
    · split
      · exact ⟨_, _, rfl⟩
      · exact ⟨_, _, rfl⟩
      · exact ⟨_, _, rfl⟩
  | [_, _, _], h | [_, _], h | [_], h | [], h => exact absurd h (by simp)

theorem handleRpcResult_short (hshort : c.range.length < 3) (s : σ) :
    handleRpcResult conn c s = insufficient s := by
  rw [handleRpcResult, if_pos hshort]

theorem handleRpcResult_outside (hthree : c.range.length = 3) (s : σ) :
    handleRpcResult conn c s = outside := by
  rw [handleRpcResult, if_neg (by omega)]
  obtain ⟨low, high, typeId, hrange⟩ := List.length_eq_three.mp hthree
  rw [hrange]

theorem handleRpcResult_exact (hresult : c.range.head? = some mtpc_rpc_result) (s : σ) :
    Exact (⟨c.range :: (handleRpcResult conn c s).ranges, (handleRpcResult conn c s).outcome⟩ :
      Handled σ) := by
  have hrange : c.range ≠ [] := by
    intro h
    rw [h] at hresult
    cases hresult
  rcases Nat.lt_trichotomy c.range.length 3 with hlength | hlength | hlength
  · rw [handleRpcResult_short hlength]
    exact (exact_done _ s).of_not_shortResult hrange (fun h => absurd h.1 (by omega))
  · rw [handleRpcResult_outside hlength]
    constructor
    · intro range hmem
      rw [List.mem_singleton.mp hmem]
      exact hrange
    · exact ⟨fun _ => ⟨c.range, List.mem_singleton_self _, hlength, hresult⟩, fun _ => rfl⟩
  · obtain ⟨result, t, hdone⟩ := handleRpcResult_done conn hlength s
    rw [hdone]
    exact (exact_done result t).of_not_shortResult hrange (fun h => absurd h.1 (by omega))

theorem handleOneReceived_exact (conn : Connection σ Msg) (depth : Nat) (c : Call) (s : σ)
    (hrange : c.range ≠ []) :
    Exact (handleOneReceived conn depth c s) := by
  induction depth generalizing c s with
  | zero => exact exact_tooDeep
  | succ depth ih =>
    obtain ⟨range, msgId, serverTime, serverSalt, badTime⟩ := c
    rcases range with _ | ⟨cons, rest⟩
    · exact absurd rfl hrange
    rw [handleOneReceived]
    dsimp only
    by_cases hresult : cons = mtpc_rpc_result
    · have hgzip : cons ≠ mtpc_gzip_packed := by rw [hresult]; decide
      have hcontainer : cons ≠ mtpc_msg_container := by rw [hresult]; decide
      rw [if_neg hgzip, if_neg hcontainer, if_pos hresult]
      exact handleRpcResult_exact
        (c := ⟨cons :: rest, msgId, serverTime, serverSalt, badTime⟩) (congrArg some hresult) s
    · have hlong : ¬ShortResult (cons :: rest) := fun h => hresult (Option.some.inj h.2)
      refine Exact.of_not_shortResult ?_ hrange hlong
      rw [if_neg hresult]
      split
      · split
        · exact exact_done _ s
        · exact exact_done _ s
        · exact ih _ s (List.cons_ne_nil _ _)
      · split
        · split
          · exact exact_done _ s
          · exact handleContainer_exact ih _ _ s
        · split
          · rw [handleService]
            split
            · exact exact_done _ s
            · split
              · exact exact_done _ s
              · exact exact_done _ _
          · rw [handleUpdates]
            split
            · exact exact_done _ s
            · exact exact_done _ _

theorem handleOneReceived_nil (hrange : c.range = []) (depth : Nat) (s : σ) :
    handleOneReceived conn (depth + 1) c s = ⟨[[]], .outside⟩ := by
  rw [handleOneReceived, hrange]
  rfl

theorem padding_enough {messageLength : UInt32} {length : Nat}
    (hlimit : ¬messageLength > kMaxMessageLength)
    (hpadding : ¬(UInt32.ofNat (4 * length) - (32 + messageLength) < 12 ∨
      UInt32.ofNat (4 * length) - (32 + messageLength) > 1024 ∨ messageLength &&& 0x03 ≠ 0)) :
    (messageLength / 4).toNat + 8 ≤ length := by
  obtain ⟨hleast, hmost, -⟩ := not_or.mp hpadding |>.imp_right not_or.mp
  rw [gt_iff_lt, UInt32.lt_iff_toNat_lt] at hlimit hmost
  rw [UInt32.lt_iff_toNat_lt] at hleast
  have hmax : kMaxMessageLength.toNat = 16777216 := rfl
  have hless : (12 : UInt32).toNat = 12 := rfl
  have hmore : (1024 : UInt32).toNat = 1024 := rfl
  have hheader : (32 : UInt32).toNat = 32 := rfl
  have hword : (4 : UInt32).toNat = 4 := rfl
  rw [UInt32.toNat_sub, UInt32.toNat_add, UInt32.toNat_ofNat', hheader] at hleast hmost
  rw [hmax] at hlimit
  rw [hless] at hleast
  rw [hmore] at hmost
  rw [UInt32.toNat_div, hword]
  omega

theorem words_pos {messageLength : UInt32} (hmultiple : messageLength &&& 0x03 = 0)
    (hzero : (messageLength / 4).toNat = 0) : messageLength = 0 := by
  have hthree : (3 : UInt32).toNat = 2 ^ 2 - 1 := rfl
  have hword : (4 : UInt32).toNat = 4 := rfl
  have hand := congrArg UInt32.toNat hmultiple
  rw [UInt32.toNat_and, hthree, Nat.and_two_pow_sub_one_eq_mod] at hand
  rw [UInt32.toNat_div, hword] at hzero
  refine UInt32.toNat_inj.mp ?_
  change messageLength.toNat % 4 = 0 at hand
  change messageLength.toNat = 0
  omega

/-- The words of the message are in the buffer, and there are some if its length says so. -/
theorem handleReceived_cases (conn : Connection σ Msg) (depth : Nat) (decryptedInts : List UInt32)
    (s : σ) :
    (∃ result t, handleReceived conn depth decryptedInts s = done result t) ∨
      ∃ c t, handleReceived conn depth decryptedInts s = handleOneReceived conn depth c t ∧
        (c.range = [] → decryptedInts[7]? = some 0) := by
  unfold handleReceived
  by_cases hshort : decryptedInts.length < kMinimalEncryptedIntsCount
  · rw [if_pos hshort]
    exact .inl ⟨_, _, rfl⟩
  rw [if_neg hshort]
  match decryptedInts, hshort with
  | salt₀ :: salt₁ :: session₀ :: session₁ :: id₀ :: id₁ :: seqNo :: messageLength :: data, _ =>
    dsimp only
    by_cases hlimit : messageLength > kMaxMessageLength
    · rw [if_pos hlimit]
      exact .inl ⟨_, _, rfl⟩
    rw [if_neg hlimit]
    split
    · exact .inl ⟨_, _, rfl⟩
    rename_i hpadding
    split
    · exact .inl ⟨_, _, rfl⟩
    split
    · exact .inl ⟨_, _, rfl⟩
    have henough : (messageLength / 4).toNat ≤ data.length :=
      Nat.le_of_add_le_add_right (padding_enough hlimit hpadding)
    rw [if_neg (Nat.not_lt.mpr henough)]
    generalize (if seqNo &&& 0x01 ≠ 0 then conn.ack (long id₀ id₁)
        (conn.checkSalt (long salt₀ salt₁) (conn.badTime id₁.toInt32 s) s).2
      else (conn.checkSalt (long salt₀ salt₁) (conn.badTime id₁.toInt32 s) s).2) = acked
    split
    · refine .inr ⟨_, _, rfl, ?_⟩
      intro hempty
      have hsize := congrArg List.length hempty
      rw [List.length_take, List.length_nil, Nat.min_eq_left henough] at hsize
      have hmultiple : messageLength &&& 0x03 = 0 := not_not.mp (not_or.mp (not_or.mp hpadding).2).2
      exact congrArg some (words_pos hmultiple hsize)
    · exact .inl ⟨_, _, rfl⟩
  | [], h | [_], h | [_, _], h | [_, _, _], h | [_, _, _, _], h | [_, _, _, _, _], h
  | [_, _, _, _, _, _], h | [_, _, _, _, _, _, _], h =>
    exact absurd (by simp [kMinimalEncryptedIntsCount]) h

end

/-- A session that keeps nothing, on a connection whose readers take no message. -/
def idle : Connection Unit Unit where
  inflate _ := none
  readMessage _ _ := .error .insufficient
  react _ _ _ s := (.success, s)
  registerMsgId _ _ s := (true, s)
  ack _ s := s
  wasSent _ _ := 0
  fixTimeSalt _ _ s := s
  requestsAcked _ s := s
  notifyInited s := s
  haveReceivedResponse _ _ s := s
  haveReceivedUpdate _ s := s
  regularDc := true
  session _ := 0
  badTime _ _ := false
  checkSalt salt _ s := (salt, s)

end TelegramClient.Mtproto.Received
