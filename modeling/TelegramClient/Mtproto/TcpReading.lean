import Mathlib
import TelegramClient.Lib.CounterMode
import TelegramClient.Lib.Framing
import TelegramClient.Mtproto.SecureRequest
import TelegramClient.Mtproto.TcpPackets

/-! Reading from a connection over TCP (`mtproto/connection_tcp.cpp`): the bytes arrive in any pieces,
are gathered in a small and a large buffer, and come out as packets. -/

namespace TelegramClient.Mtproto

def kSmallBufferSize : Nat := 256 * 1024

def kMinPacketBuffer : Nat := 256

/-! ### The protocols -/

structure Protocol where
  readPacketLength : List UInt8 → PacketLength
  readPacket : List UInt8 → Option (List UInt8)

namespace Protocol

def version0 : Protocol := ⟨Version0.readPacketLength, Version0.readPacket⟩

def versionD : Protocol := ⟨VersionD.readPacketLength, VersionD.readPacket⟩

/-- The version with a secret has the packets of the one without. -/
def create (secret : List UInt8) : Option Protocol :=
  if secret.length = 17 ∧ secret.head? = some 0xDD then some versionD
  else if secret.length = 16 then some version0
  else if secret = [] then some version0
  else none

end Protocol

def PacketLength.frameSize : PacketLength → FrameSize
  | .unknown => .unknown
  | .invalid => .invalid
  | .known size => .known size

/-- The packet as words. The first one is an error when there are less than three. -/
def parsePacket (protocol : Protocol) (bytes : List UInt8) : Option (List UInt32) :=
  match protocol.readPacket bytes with
  | none => none
  | some packet =>
    match Words.wordsOf packet with
    | [] => none
    | first :: ints => if (first :: ints).length < 3 then some [first] else some (first :: ints)

/-! ### The connection -/

structure TcpConnection where
  offsetBytes : Nat := 0
  readBytes : Nat := 0
  leftBytes : Nat := 0
  smallBuffer : List UInt8 := []
  largeBuffer : List UInt8 := []
  usingLargeBuffer : Bool := false
  /-- How many bytes `_receiveState` has decrypted. -/
  received : Nat := 0
  /-- What `socketPacket` was called with, parsed. -/
  packets : List (List UInt32) := []
  /-- Whether an error was emitted, after which nothing is read. -/
  error : Bool := false

namespace TcpConnection

variable (protocol : Protocol) (cipher : List UInt8 → List UInt8) (iv : List UInt8)

def buffer (c : TcpConnection) : List UInt8 :=
  if c.usingLargeBuffer then c.largeBuffer else c.smallBuffer

def setBuffer (c : TcpConnection) (bytes : List UInt8) : TcpConnection :=
  if c.usingLargeBuffer then { c with largeBuffer := bytes } else { c with smallBuffer := bytes }

/-- The bytes that were read and belong to no packet yet. -/
def unread (c : TcpConnection) : List UInt8 := (c.buffer.drop c.offsetBytes).take c.readBytes

/-- Nothing when an assertion fails, here and below. -/
def ensureAvailableInBuffer (amount : Nat) (c : TcpConnection) : Option TcpConnection :=
  let full := c.buffer.drop c.offsetBytes
  let read := full.take c.readBytes
  if c.buffer.length < c.offsetBytes then none
  else if amount ≤ full.length then some c
  else if full.length < c.readBytes then none
  else if amount ≤ c.smallBuffer.length then
    if c.smallBuffer.length < read.length then none
    else if c.usingLargeBuffer then
      some { c with
        smallBuffer := overwrite c.smallBuffer 0 read
        usingLargeBuffer := false
        largeBuffer := []
        offsetBytes := 0 }
    else some { c with smallBuffer := overwrite c.smallBuffer 0 read, offsetBytes := 0 }
  else if amount ≤ c.largeBuffer.length then
    if c.usingLargeBuffer = false ∨ c.largeBuffer.length < read.length then none
    else some { c with largeBuffer := overwrite c.largeBuffer 0 read, offsetBytes := 0 }
  else if amount < read.length then none
  else
    some { c with
      largeBuffer := overwrite (.replicate amount 0) 0 read
      usingLargeBuffer := true
      offsetBytes := 0 }

def socketPacket (bytes : List UInt8) (c : TcpConnection) : Option TcpConnection :=
  (parsePacket protocol bytes).map fun packet => { c with packets := c.packets ++ [packet] }

/-- The loop over the packets in the small buffer, where the span that is looked at stays in its place
when the bytes of the buffer are moved. -/
def readPackets : Nat → Nat → Nat → TcpConnection → Option TcpConnection
  | 0, _, _, _ => none
  | fuel + 1, start, size, c =>
    if c.readBytes = 0 then some c
    else
      let available := (c.smallBuffer.drop start).take size
      match protocol.readPacketLength available with
      | .unknown => some c
      | .invalid => some { c with error := true }
      | .known packetSize =>
        if packetSize ≤ available.length then
          (c.socketPacket protocol (available.take packetSize)).bind fun c =>
            (ensureAvailableInBuffer kMinPacketBuffer { c with
              offsetBytes := c.offsetBytes + packetSize
              readBytes := c.readBytes - packetSize }).bind fun c =>
                readPackets fuel (start + packetSize) (size - packetSize) c
        else ensureAvailableInBuffer packetSize { c with leftBytes := packetSize - available.length }

/-- What is done with the bytes of one `read` of the socket, after they were copied to the buffer. -/
def taken (count : Nat) (c : TcpConnection) : Option TcpConnection :=
  if 0 < c.leftBytes then
    if c.leftBytes < count then none
    else if c.leftBytes - count = 0 then
      (c.socketPacket protocol c.unread).map fun c => { c with
        leftBytes := 0
        usingLargeBuffer := false
        largeBuffer := []
        offsetBytes := 0
        readBytes := 0 }
    else some { c with leftBytes := c.leftBytes - count }
  else readPackets protocol (c.readBytes + 1) c.offsetBytes c.readBytes c

def readLimit (c : TcpConnection) : Nat :=
  if 0 < c.leftBytes then c.leftBytes else kSmallBufferSize - c.offsetBytes - c.readBytes

/-- One turn of the loop of `socketRead`, and what the socket still has. -/
def readOnce (arrived : List UInt8) (c : TcpConnection) : Option (List UInt8 × TcpConnection) :=
  let full := c.buffer.drop c.offsetBytes
  let free := full.drop c.readBytes
  if c.readLimit = 0 ∨ c.buffer.length < c.offsetBytes ∨ full.length < c.readBytes ∨
      free.length < c.readLimit then none
  else
    let read := CounterMode.xorFrom cipher iv c.received (arrived.take c.readLimit)
    let written := c.setBuffer (overwrite c.buffer (c.offsetBytes + c.readBytes) read)
    (taken protocol read.length { written with
      received := c.received + read.length
      readBytes := c.readBytes + read.length }).map fun t => (arrived.drop c.readLimit, t)

def readAll : Nat → List UInt8 → TcpConnection → Option TcpConnection
  | 0, _, _ => none
  | fuel + 1, arrived, c =>
    if arrived = [] ∨ c.error = true then some c
    else (c.readOnce protocol cipher iv arrived).bind fun p => readAll fuel p.1 p.2

/-- `socketRead` when these bytes have arrived -/
def socketRead (c : TcpConnection) (arrived : List UInt8) : Option TcpConnection :=
  if c.leftBytes = 0 ∧ c.usingLargeBuffer = true then none
  else
    readAll protocol cipher iv (arrived.length + 1) arrived
      (if c.smallBuffer = [] then { c with smallBuffer := .replicate kSmallBufferSize 0 } else c)

end TcpConnection

/-! ### Packets as frames -/

namespace Version0

theorem readPacketLength_known {bytes : List UInt8} {size : Nat}
    (h : readPacketLength bytes = .known size) :
    5 ≤ size ∧ (bytes.head? = some 0x7F → 8 ≤ size) := by
  cases bytes with
  | nil => cases h
  | cons first rest =>
    unfold readPacketLength at h
    dsimp only at h
    by_cases hfirst : first = 0x7F
    · rw [if_pos hfirst] at h
      split at h
      · split at h
        · cases h
          rw [Nat.shiftLeft_eq]
          omega
        · cases h
      · cases h
    · rw [if_neg hfirst] at h
      have hhead : (first :: rest).head? ≠ some 0x7F := by simpa using hfirst
      split at h
      · next hbounds =>
        cases h
        have hpos := UInt8.lt_iff_toNat_lt.mp hbounds.1
        have hzero : (0 : UInt8).toNat = 0 := rfl
        refine ⟨?_, fun h => absurd h hhead⟩
        rw [Nat.shiftLeft_eq]
        omega
      · cases h

def framing : Framing UInt8 where
  measure bytes := (readPacketLength bytes).frameSize
  header := 4
  ne_unknown bytes hbytes := by
    match bytes, hbytes with
    | first :: a :: b :: c :: rest, _ =>
      unfold readPacketLength
      dsimp only
      split
      · split <;> exact nofun
      · split <;> exact nofun
  stable bytes more hbytes := by
    match bytes, hbytes with
    | [], hbytes => exact absurd rfl hbytes
    | first :: rest, hbytes =>
      rw [List.cons_append]
      unfold readPacketLength at hbytes ⊢
      dsimp only at hbytes ⊢
      by_cases hfirst : first = 0x7F
      · rw [if_pos hfirst] at hbytes
        rw [if_pos hfirst, if_pos hfirst]
        match rest, hbytes with
        | [], hbytes => exact absurd rfl hbytes
        | [_], hbytes => exact absurd rfl hbytes
        | [_, _], hbytes => exact absurd rfl hbytes
        | a :: b :: c :: rest, _ => rfl
      · rw [if_neg hfirst, if_neg hfirst]
  header_pos := by decide
  header_le bytes size h := by
    cases hread : readPacketLength bytes with
    | unknown => rw [hread] at h; cases h
    | invalid => rw [hread] at h; cases h
    | known n =>
      rw [hread] at h
      cases h
      have hle := (readPacketLength_known hread).1
      omega
  nil_unknown := rfl

end Version0

namespace VersionD

theorem readPacketLength_known {bytes : List UInt8} {size : Nat}
    (h : readPacketLength bytes = .known size) : 8 ≤ size := by
  unfold readPacketLength at h
  split at h
  · dsimp only at h
    split at h
    · next hvalue =>
      cases h
      exact hvalue.1
    · cases h
  · cases h

def framing : Framing UInt8 where
  measure bytes := (readPacketLength bytes).frameSize
  header := 4
  ne_unknown bytes hbytes := by
    match bytes, hbytes with
    | a :: b :: c :: d :: rest, _ =>
      unfold readPacketLength
      dsimp only
      split <;> exact nofun
  stable bytes more hbytes := by
    match bytes, hbytes with
    | [], hbytes => exact absurd rfl hbytes
    | [_], hbytes => exact absurd rfl hbytes
    | [_, _], hbytes => exact absurd rfl hbytes
    | [_, _, _], hbytes => exact absurd rfl hbytes
    | a :: b :: c :: d :: rest, _ => rfl
  header_pos := by decide
  header_le bytes size h := by
    cases hread : readPacketLength bytes with
    | unknown => rw [hread] at h; cases h
    | invalid => rw [hread] at h; cases h
    | known n =>
      rw [hread] at h
      cases h
      have hle := readPacketLength_known hread
      omega
  nil_unknown := rfl

end VersionD

/-- The packets of a protocol are the frames, and every one of them can be parsed. -/
structure Protocol.Framed (protocol : Protocol) (F : Framing UInt8) : Prop where
  measure : ∀ bytes, F.measure bytes = (protocol.readPacketLength bytes).frameSize
  header : F.header = 4
  parsed : ∀ f, F.IsFrame f → ∃ packet, parsePacket protocol f = some packet

theorem parsePacket_of_long {protocol : Protocol} {bytes packet : List UInt8}
    (hread : protocol.readPacket bytes = some packet) (hlong : 4 ≤ packet.length) :
    ∃ ints, parsePacket protocol bytes = some ints := by
  match packet, hlong with
  | a :: b :: c :: d :: rest, _ =>
    simp only [parsePacket, hread, Words.wordsOf]
    split <;> exact ⟨_, rfl⟩

theorem frameSize_eq_known {length : PacketLength} {size : Nat} :
    length.frameSize = .known size ↔ length = .known size := by
  cases length <;> simp [PacketLength.frameSize]

theorem version0_framed : Protocol.version0.Framed Version0.framing where
  measure _ := rfl
  header := rfl
  parsed f hf := by
    have hread : Version0.readPacketLength f = .known f.length := frameSize_eq_known.mp hf
    obtain ⟨hfive, height⟩ := Version0.readPacketLength_known hread
    have hpacket : Protocol.version0.readPacket f = some ((f.drop
        (if f.head? = some 0x7F then 4 else 1)).take
          (f.length - if f.head? = some 0x7F then 4 else 1)) := by
      show Version0.readPacket f = _
      rw [Version0.readPacket, hread]
      exact if_pos le_rfl
    refine parsePacket_of_long hpacket ?_
    rw [List.length_take, List.length_drop]
    split
    · next hhead =>
      have hle := height hhead
      omega
    · omega

theorem versionD_framed : Protocol.versionD.Framed VersionD.framing where
  measure _ := rfl
  header := rfl
  parsed f hf := by
    have hread : VersionD.readPacketLength f = .known f.length := frameSize_eq_known.mp hf
    have height := VersionD.readPacketLength_known hread
    have hpacket : Protocol.versionD.readPacket f = some ((f.drop 4).take (f.length - 4)) := by
      show VersionD.readPacket f = _
      rw [VersionD.readPacket, hread]
      exact if_pos le_rfl
    refine parsePacket_of_long hpacket ?_
    rw [List.length_take, List.length_drop]
    omega

theorem create_framed {secret : List UInt8} {protocol : Protocol}
    (h : Protocol.create secret = some protocol) : ∃ F, protocol.Framed F := by
  rw [Protocol.create] at h
  split at h
  · cases h
    exact ⟨_, versionD_framed⟩
  split at h
  · cases h
    exact ⟨_, version0_framed⟩
  split at h
  · cases h
    exact ⟨_, version0_framed⟩
  · cases h

/-! ### The buffers -/

/-- What was there, and behind it what was written. -/
theorem take_overwrite {buffer bytes : List UInt8} {start size : Nat}
    (h : start + size ≤ buffer.length) :
    ((overwrite buffer (start + size) bytes).drop start).take (size + bytes.length) =
      (buffer.drop start).take size ++ bytes := by
  have htake : (buffer.take (start + size)).drop start = (buffer.drop start).take size := by
    rw [List.drop_take, Nat.add_sub_cancel_left]
  have hlength : ((buffer.drop start).take size).length = size := by
    rw [List.length_take, List.length_drop]
    omega
  have hstart : start ≤ (buffer.take (start + size)).length := by
    rw [List.length_take]
    omega
  rw [overwrite, List.append_assoc, List.drop_append_of_le_length hstart, htake,
    ← List.append_assoc]
  exact List.take_left' (by rw [List.length_append, hlength])

theorem take_overwrite_zero (buffer bytes : List UInt8) :
    (overwrite buffer 0 bytes).take bytes.length = bytes := by
  rw [overwrite, List.take_zero, List.nil_append, List.take_left]

/-- What lies behind the bytes that were written stays. -/
theorem drop_overwrite_zero {buffer bytes : List UInt8} {start : Nat} (h : bytes.length ≤ start) :
    (overwrite buffer 0 bytes).drop start = buffer.drop start := by
  rw [overwrite, List.take_zero, List.nil_append, Nat.zero_add, List.drop_append,
    List.drop_of_length_le h, List.nil_append, List.drop_drop, Nat.add_sub_cancel' h]

namespace TcpConnection

variable {protocol : Protocol} {F : Framing UInt8} {c t : TcpConnection} {pending : List UInt8}
  {amount : Nat}

/-- The bytes that were read lie in the buffer that is used. -/
structure Buffered (c : TcpConnection) (pending : List UInt8) : Prop where
  unread : c.unread = pending
  size : c.readBytes = pending.length
  room : c.offsetBytes + c.readBytes ≤ c.buffer.length
  small : c.smallBuffer.length = kSmallBufferSize
  large : c.usingLargeBuffer = false → c.largeBuffer = []
  error : c.error = false

/-- Nothing else than the place of the bytes has changed. -/
structure Moved (c t : TcpConnection) : Prop where
  readBytes : t.readBytes = c.readBytes
  leftBytes : t.leftBytes = c.leftBytes
  received : t.received = c.received
  packets : t.packets = c.packets

theorem buffer_small (h : c.usingLargeBuffer = false) : c.buffer = c.smallBuffer := by
  rw [buffer, h, if_neg Bool.false_ne_true]

theorem buffer_large (h : c.usingLargeBuffer = true) : c.buffer = c.largeBuffer := by
  rw [buffer, h, if_pos rfl]

theorem buffered_small (hsmall : c.usingLargeBuffer = false)
    (hunread : (c.smallBuffer.drop c.offsetBytes).take c.readBytes = pending)
    (hsize : c.readBytes = pending.length)
    (hroom : c.offsetBytes + c.readBytes ≤ c.smallBuffer.length)
    (hlength : c.smallBuffer.length = kSmallBufferSize) (hlarge : c.largeBuffer = [])
    (herror : c.error = false) : Buffered c pending where
  unread := by rwa [unread, buffer_small hsmall]
  size := hsize
  room := by rwa [buffer_small hsmall]
  small := hlength
  large _ := hlarge
  error := herror

/-- There is room for the amount, and the span that was looked at before still shows the same bytes
when the amount is not too large. -/
theorem ensureAvailableInBuffer_eq (h : Buffered c pending) (hsmall : c.usingLargeBuffer = false)
    (amount : Nat) : ∃ t, ensureAvailableInBuffer amount c = some t ∧ Buffered t pending ∧
      Moved c t ∧ t.offsetBytes + amount ≤ t.buffer.length ∧
      (amount ≤ kSmallBufferSize → t.usingLargeBuffer = false) ∧
      (t = c ∨ kSmallBufferSize < c.offsetBytes + amount ∧ t.offsetBytes = 0 ∧
        (2 * amount ≤ kSmallBufferSize →
          t.smallBuffer.drop c.offsetBytes = c.smallBuffer.drop c.offsetBytes)) := by
  have hbuffer := buffer_small hsmall
  have hroom := h.room
  have hsize := h.size
  have hsmallLength := h.small
  rw [hbuffer] at hroom
  have hread : (c.buffer.drop c.offsetBytes).take c.readBytes = pending := h.unread
  have hfull : (c.buffer.drop c.offsetBytes).length = kSmallBufferSize - c.offsetBytes := by
    rw [hbuffer, List.length_drop, hsmallLength]
  rw [ensureAvailableInBuffer]
  simp only [hread, hfull]
  rw [if_neg (by rw [hbuffer]; omega)]
  by_cases hamount : amount ≤ kSmallBufferSize - c.offsetBytes
  · rw [if_pos hamount]
    refine ⟨c, rfl, h, ⟨rfl, rfl, rfl, rfl⟩, ?_, fun _ => hsmall, .inl rfl⟩
    rw [hbuffer, hsmallLength]
    omega
  rw [if_neg hamount, if_neg (by omega), hsmallLength]
  by_cases hfits : amount ≤ kSmallBufferSize
  · have hnot : ¬c.usingLargeBuffer = true := Bool.eq_false_iff.mp hsmall
    rw [if_pos hfits, if_neg (by omega), if_neg hnot]
    obtain ⟨t, ht⟩ : ∃ t : TcpConnection, t = { c with
      smallBuffer := overwrite c.smallBuffer 0 pending
      offsetBytes := 0 } := ⟨_, rfl⟩
    have htsmall : t.usingLargeBuffer = false := by rw [ht, hsmall]
    have hlength : t.smallBuffer.length = kSmallBufferSize := by
      rw [ht, ← hsmallLength]
      exact length_overwrite (by omega)
    have hzero : t.offsetBytes = 0 := by rw [ht]
    have hcount : t.readBytes = c.readBytes := by rw [ht]
    have hbytes : t.smallBuffer = overwrite c.smallBuffer 0 pending := by rw [ht]
    rw [← ht]
    refine ⟨t, rfl, buffered_small htsmall ?_ (hcount.trans hsize) (by omega) hlength ?_ ?_, ?_, ?_,
      fun _ => htsmall, .inr ⟨by omega, hzero, fun htwice => ?_⟩⟩
    · rw [hbytes, hzero, hcount, hsize, List.drop_zero, take_overwrite_zero]
    · rw [ht]
      exact h.large hsmall
    · rw [ht]
      exact h.error
    · rw [ht]
      exact ⟨rfl, rfl, rfl, rfl⟩
    · rw [buffer_small htsmall]
      omega
    · rw [hbytes]
      exact drop_overwrite_zero (by omega)
  · have hlarge : ¬amount ≤ c.largeBuffer.length := by
      rw [h.large hsmall, List.length_nil]
      omega
    rw [if_neg hfits, if_neg hlarge, if_neg (by omega)]
    obtain ⟨t, ht⟩ : ∃ t : TcpConnection, t = { c with
      largeBuffer := overwrite (.replicate amount 0) 0 pending
      usingLargeBuffer := true
      offsetBytes := 0 } := ⟨_, rfl⟩
    have htlarge : t.usingLargeBuffer = true := by rw [ht]
    have hlength : t.buffer.length = amount := by
      rw [buffer_large htlarge, ht]
      exact (length_overwrite (by rw [List.length_replicate]; omega)).trans List.length_replicate
    have hzero : t.offsetBytes = 0 := by rw [ht]
    have hcount : t.readBytes = c.readBytes := by rw [ht]
    rw [← ht]
    refine ⟨t, rfl, ⟨?_, hcount.trans hsize, by omega, ?_, fun hfalse => ?_, ?_⟩, ?_, by omega,
      fun hle => absurd hle hfits, .inr ⟨by omega, hzero, fun htwice => by omega⟩⟩
    · rw [TcpConnection.unread, buffer_large htlarge, hzero, hcount, hsize, List.drop_zero, ht,
        take_overwrite_zero]
    · rw [ht]
      exact hsmallLength
    · rw [htlarge] at hfalse
      cases hfalse
    · rw [ht]
      exact h.error
    · rw [ht]
      exact ⟨rfl, rfl, rfl, rfl⟩

/-- Between two reads: no packet is complete, and there is room for what is read next. -/
structure Waiting (F : Framing UInt8) (c : TcpConnection) (pending : List UInt8) : Prop
    extends Buffered c pending where
  unknown : c.leftBytes = 0 → c.usingLargeBuffer = false ∧ F.measure pending = .unknown ∧
    c.offsetBytes + kMinPacketBuffer ≤ kSmallBufferSize
  known : 0 < c.leftBytes → F.measure pending = .known (pending.length + c.leftBytes) ∧
    c.offsetBytes + c.readBytes + c.leftBytes ≤ c.buffer.length

/-- The packets that have come out, and what is left in the buffer, are those of the bytes that have
come in. -/
def Sofar (protocol : Protocol) (F : Framing UInt8) (c : TcpConnection) (bytes : List UInt8) : Prop :=
  c.packets.map some = (F.frames bytes).map (parsePacket protocol) ∧
    (F.measure (F.rest bytes) = .invalid ∧ c.error = true ∧ c.usingLargeBuffer = false ∨
      F.measure (F.rest bytes) ≠ .invalid ∧ c.received = bytes.length ∧
        Waiting F c (F.rest bytes))

/-- How the packets and the rest of more bytes come to those of the bytes before. -/
structure Reads (protocol : Protocol) (F : Framing UInt8) (c t : TcpConnection)
    (pending : List UInt8) : Prop where
  packets : t.packets.map some =
    c.packets.map some ++ (F.frames pending).map (parsePacket protocol)
  received : t.received = c.received
  rest : F.measure (F.rest pending) = .invalid ∧ t.error = true ∧ t.usingLargeBuffer = false ∨
    F.measure (F.rest pending) ≠ .invalid ∧ Waiting F t (F.rest pending)

theorem Reads.of_stuck (hstuck : F.Stuck pending) (hpackets : t.packets = c.packets)
    (hreceived : t.received = c.received) (hinvalid : F.measure pending ≠ .invalid)
    (h : Waiting F t pending) : Reads protocol F c t pending where
  packets := by rw [Framing.frames_of_stuck hstuck, hpackets, List.map_nil, List.append_nil]
  received := hreceived
  rest := by
    rw [Framing.rest_of_stuck hstuck]
    exact .inr ⟨hinvalid, h⟩

/-- One packet after the other comes out. The span follows the bytes in the buffer until they are
moved, and is not moved again after that: then there is less than a packet needs of them. -/
theorem readPackets_eq (hframed : protocol.Framed F) {fuel start : Nat} (h : Buffered c pending)
    (hsmall : c.usingLargeBuffer = false) (hleft : c.leftBytes = 0)
    (hoffset : c.offsetBytes + kMinPacketBuffer ≤ kSmallBufferSize)
    (hspan : (c.smallBuffer.drop start).take pending.length = pending)
    (hstart : start = c.offsetBytes ∨ c.offsetBytes + pending.length ≤ kMinPacketBuffer)
    (hfuel : pending.length < fuel) :
    ∃ t, readPackets protocol fuel start pending.length c = some t ∧
      Reads protocol F c t pending := by
  induction fuel generalizing c pending start with
  | zero => exact absurd hfuel (Nat.not_lt_zero _)
  | succ fuel ih =>
    rw [readPackets]
    by_cases hzero : c.readBytes = 0
    · rw [if_pos hzero]
      have hnil : pending = [] := List.eq_nil_of_length_eq_zero (h.size ▸ hzero)
      subst hnil
      have hunknown := F.nil_unknown
      have hvalid : F.measure [] ≠ .invalid := by
        rw [hunknown]
        exact FrameSize.unknown_ne_invalid
      refine ⟨c, rfl, .of_stuck Framing.stuck_nil rfl rfl hvalid ⟨h, ?_, ?_⟩⟩
      · exact fun _ => ⟨hsmall, hunknown, hoffset⟩
      · exact fun hpos => absurd hleft hpos.ne'
    rw [if_neg hzero]
    simp only [hspan]
    have hmeasure := hframed.measure pending
    cases hlength : protocol.readPacketLength pending with
    | unknown =>
      rw [hlength] at hmeasure
      have hstuck : F.Stuck pending := by
        intro n hn
        rw [hmeasure] at hn
        cases hn
      have hvalid : F.measure pending ≠ .invalid := by
        rw [hmeasure]
        exact FrameSize.unknown_ne_invalid
      refine ⟨c, rfl, .of_stuck hstuck rfl rfl hvalid ⟨h, ?_, ?_⟩⟩
      · exact fun _ => ⟨hsmall, hmeasure, hoffset⟩
      · exact fun hpos => absurd hleft hpos.ne'
    | invalid =>
      rw [hlength] at hmeasure
      have hstuck : F.Stuck pending := by
        intro n hn
        rw [hmeasure] at hn
        cases hn
      refine ⟨_, rfl, ?_, rfl, ?_⟩
      · rw [Framing.frames_of_stuck hstuck, List.map_nil, List.append_nil]
      · rw [Framing.rest_of_stuck hstuck]
        exact .inl ⟨hmeasure, rfl, hsmall⟩
    | known n =>
      rw [hlength] at hmeasure
      have hheader := F.header_le pending n hmeasure
      rw [hframed.header] at hheader
      by_cases hn : n ≤ pending.length
      · simp only [if_pos hn]
        obtain ⟨packet, hpacket⟩ := hframed.parsed _ (Framing.isFrame_take hmeasure hn)
        simp only [socketPacket, hpacket, Option.map_some, Option.bind_some]
        have hroom := h.room
        have hsize := h.size
        obtain ⟨c', hc'⟩ : ∃ c' : TcpConnection, c' = { c with
          packets := c.packets ++ [packet]
          offsetBytes := c.offsetBytes + n
          readBytes := c.readBytes - n } := ⟨_, rfl⟩
        have hsmall' : c'.usingLargeBuffer = false := by rw [hc', hsmall]
        have hbuffer : c'.smallBuffer = c.smallBuffer := by rw [hc']
        have hoffset' : c'.offsetBytes = c.offsetBytes + n := by rw [hc']
        have hunread : (c.smallBuffer.drop c.offsetBytes).take c.readBytes = pending := by
          rw [← buffer_small hsmall]
          exact h.unread
        have hcount : c'.readBytes = c.readBytes - n := by rw [hc']
        have h' : Buffered c' (pending.drop n) := by
          rw [buffer_small hsmall] at hroom
          refine buffered_small hsmall' ?_ ?_ ?_ ?_ ?_ ?_
          · rw [hbuffer, hoffset', hcount, ← hunread, List.drop_take, List.drop_drop]
          · rw [hcount, List.length_drop, hsize]
          · rw [hbuffer, hoffset', hcount]
            omega
          · rw [hbuffer, h.small]
          · rw [hc']
            exact h.large hsmall
          · rw [hc']
            exact h.error
        obtain ⟨t, ht, hbuffered, hmoved, hspace, hnot, hplace⟩ :=
          ensureAvailableInBuffer_eq h' hsmall' kMinPacketBuffer
        have hlength : (pending.drop n).length = pending.length - n := List.length_drop
        have hspan' : (c.smallBuffer.drop (start + n)).take (pending.length - n) =
            pending.drop n := by
          rw [← List.drop_drop, ← List.drop_take, hspan]
        have hkept : t = c' ∨ start + n = c'.offsetBytes ∧ t.offsetBytes = 0 ∧
            pending.length - n < kMinPacketBuffer ∧
            t.smallBuffer.drop (start + n) = c'.smallBuffer.drop (start + n) := by
          refine hplace.imp_right fun ⟨hlarge, hzero', hdrop⟩ => ?_
          have hroom' := h'.room
          rw [buffer_small hsmall', h'.small, h'.size, hlength] at hroom'
          rcases hstart with rfl | hfew
          · have hplaces : c.offsetBytes + n = c'.offsetBytes := hoffset'.symm
            refine ⟨hplaces, hzero', by omega, ?_⟩
            rw [hplaces]
            exact hdrop (by decide)
          · simp only [kMinPacketBuffer, kSmallBufferSize] at hfew hlarge
            omega
        have hcall : ∃ u, readPackets protocol fuel (start + n) (pending.length - n) t = some u ∧
            Reads protocol F t u (pending.drop n) := by
          rw [← hlength]
          refine ih hbuffered (hnot (by decide)) ?_ ?_ ?_ ?_ ?_
          · rw [hmoved.leftBytes, hc', hleft]
          · rw [buffer_small (hnot (by decide)), hbuffered.small] at hspace
            exact hspace
          · rcases hkept with rfl | ⟨-, -, -, hdrop⟩
            · rw [hbuffer, hlength, hspan']
            · rw [hdrop, hbuffer, hlength, hspan']
          · rcases hkept with rfl | ⟨-, hzero', hfew, -⟩
            · refine hstart.imp (fun heq => ?_) fun hfew => ?_
              · rw [heq, hoffset']
              · rw [hlength, hoffset']
                omega
            · rw [hlength, hzero']
              omega
          · omega
        obtain ⟨u, hu, hreads⟩ := hcall
        refine ⟨u, ?_, ?_, ?_, ?_⟩
        · rw [← hc', ht]
          exact hu
        · rw [hreads.packets, hmoved.packets, hc', Framing.frames_of_known hmeasure hn, List.map_cons,
            hpacket, List.map_append, List.append_assoc]
          rfl
        · rw [hreads.received, hmoved.received, hc']
        · rw [Framing.rest_of_known hmeasure hn]
          exact hreads.rest
      · simp only [if_neg hn]
        have hsize := h.size
        obtain ⟨c', hc'⟩ : ∃ c' : TcpConnection, c' = { c with leftBytes := n - pending.length } :=
          ⟨_, rfl⟩
        have hsmall' : c'.usingLargeBuffer = false := by rw [hc', hsmall]
        have h' : Buffered c' pending := by
          rw [hc']
          exact ⟨h.unread, h.size, h.room, h.small, h.large, h.error⟩
        obtain ⟨t, ht, hbuffered, hmoved, hspace, -, -⟩ :=
          ensureAvailableInBuffer_eq h' hsmall' n
        have hleft' : t.leftBytes = n - pending.length := by rw [hmoved.leftBytes, hc']
        have hread : t.readBytes = pending.length := hbuffered.size
        have hstuck : F.Stuck pending := by
          intro m hm
          rw [hmeasure] at hm
          cases hm
          omega
        refine ⟨t, ?_, .of_stuck hstuck ?_ ?_ ?_ ⟨hbuffered, ?_, fun _ => ⟨?_, ?_⟩⟩⟩
        · rw [← hc', ht]
        · rw [hmoved.packets, hc']
        · rw [hmoved.received, hc']
        · rw [hmeasure]
          exact FrameSize.known_ne_invalid
        · intro hzero'
          omega
        · rw [hmeasure, hleft', Nat.add_sub_cancel' (by omega)]
          rfl
        · omega

/-! ### Reading -/

theorem Waiting.length_lt (hframed : protocol.Framed F) (h : Waiting F c pending)
    (hleft : c.leftBytes = 0) : pending.length < 4 := by
  by_contra hlong
  exact F.ne_unknown pending (hframed.header ▸ Nat.not_lt.mp hlong) (h.unknown hleft).2.1

theorem Waiting.readLimit (hframed : protocol.Framed F) (h : Waiting F c pending) :
    0 < c.readLimit ∧ c.offsetBytes + c.readBytes + c.readLimit ≤ c.buffer.length := by
  rw [TcpConnection.readLimit]
  by_cases hleft : 0 < c.leftBytes
  · rw [if_pos hleft]
    exact ⟨hleft, (h.known hleft).2⟩
  · have hzero : c.leftBytes = 0 := Nat.eq_zero_of_not_pos hleft
    obtain ⟨hsmall, -, hoffset⟩ := h.unknown hzero
    have hfew := h.length_lt hframed hzero
    have hsize := h.size
    have hlength := h.small
    rw [if_neg hleft, buffer_small hsmall, hlength]
    simp only [kMinPacketBuffer] at hoffset
    omega

theorem setBuffer_eq (c : TcpConnection) (bytes : List UInt8) : ∃ small large,
    c.setBuffer bytes = { c with smallBuffer := small, largeBuffer := large } ∧
      (c.usingLargeBuffer = true → small = c.smallBuffer ∧ large = bytes) ∧
      (c.usingLargeBuffer = false → small = bytes ∧ large = c.largeBuffer) := by
  by_cases hlarge : c.usingLargeBuffer = true
  · refine ⟨c.smallBuffer, bytes, ?_, fun _ => ⟨rfl, rfl⟩, fun hfalse => ?_⟩
    · rw [setBuffer, if_pos hlarge]
    · rw [hlarge] at hfalse
      cases hfalse
  · refine ⟨bytes, c.largeBuffer, ?_, fun htrue => absurd htrue hlarge, fun _ => ⟨rfl, rfl⟩⟩
    rw [setBuffer, if_neg hlarge]

/-- What was read is copied behind what was there. -/
theorem Buffered.written {bytes : List UInt8} (h : Buffered c pending)
    (hroom : c.offsetBytes + c.readBytes + bytes.length ≤ c.buffer.length) :
    ∃ w, { c.setBuffer (overwrite c.buffer (c.offsetBytes + c.readBytes) bytes) with
        received := c.received + bytes.length
        readBytes := c.readBytes + bytes.length } = w ∧ Buffered w (pending ++ bytes) ∧
      w.usingLargeBuffer = c.usingLargeBuffer ∧ w.leftBytes = c.leftBytes ∧
      w.offsetBytes = c.offsetBytes ∧ w.packets = c.packets ∧
      w.received = c.received + bytes.length ∧ w.buffer.length = c.buffer.length := by
  have hlength := length_overwrite hroom
  have hunread : (c.buffer.drop c.offsetBytes).take c.readBytes = pending := h.unread
  have hbytes := @take_overwrite c.buffer bytes _ _ h.room
  rw [hunread] at hbytes
  obtain ⟨small, large, hset, hinLarge, hinSmall⟩ :=
    setBuffer_eq c (overwrite c.buffer (c.offsetBytes + c.readBytes) bytes)
  obtain ⟨w, hw⟩ : ∃ w : TcpConnection, w = { c with
    smallBuffer := small
    largeBuffer := large
    received := c.received + bytes.length
    readBytes := c.readBytes + bytes.length } := ⟨_, rfl⟩
  have husing : w.usingLargeBuffer = c.usingLargeBuffer := by rw [hw]
  have hoffset : w.offsetBytes = c.offsetBytes := by rw [hw]
  have hcount : w.readBytes = c.readBytes + bytes.length := by rw [hw]
  have hbuffer : w.buffer = overwrite c.buffer (c.offsetBytes + c.readBytes) bytes ∧
      w.smallBuffer.length = kSmallBufferSize ∧
      (w.usingLargeBuffer = false → w.largeBuffer = []) := by
    cases hlarge : c.usingLargeBuffer with
    | true =>
      have hwlarge := husing.trans hlarge
      obtain ⟨rfl, rfl⟩ := hinLarge hlarge
      rw [buffer_large hwlarge, hwlarge, hw]
      exact ⟨rfl, h.small, nofun⟩
    | false =>
      have hwsmall := husing.trans hlarge
      obtain ⟨rfl, rfl⟩ := hinSmall hlarge
      rw [buffer_small hwsmall, hw]
      refine ⟨rfl, ?_, fun _ => h.large hlarge⟩
      rw [hlength, buffer_small hlarge, h.small]
  have hsame : w.leftBytes = c.leftBytes ∧ w.packets = c.packets ∧
      w.received = c.received + bytes.length ∧ w.error = c.error := by
    rw [hw]
    exact ⟨rfl, rfl, rfl, rfl⟩
  rw [hset, ← hw]
  refine ⟨w, rfl, ⟨?_, ?_, ?_, hbuffer.2.1, hbuffer.2.2, hsame.2.2.2.trans h.error⟩, husing, hsame.1,
    hoffset, hsame.2.1, hsame.2.2.1, ?_⟩
  · rw [TcpConnection.unread, hbuffer.1, hoffset, hcount, hbytes]
  · rw [hcount, h.size, List.length_append]
  · rw [hbuffer.1, hlength, hoffset, hcount, ← Nat.add_assoc]
    exact hroom
  · rw [hbuffer.1, hlength]

theorem taken_eq (hframed : protocol.Framed F) {bytes : List UInt8} (h : Waiting F c pending)
    (hlimit : bytes.length ≤ c.readLimit) {w : TcpConnection}
    (hw : Buffered w (pending ++ bytes)) (hlarge : w.usingLargeBuffer = c.usingLargeBuffer)
    (hleft : w.leftBytes = c.leftBytes) (hoffset : w.offsetBytes = c.offsetBytes)
    (hbuffer : w.buffer.length = c.buffer.length) :
    ∃ t, taken protocol bytes.length w = some t ∧ Reads protocol F w t (pending ++ bytes) := by
  rw [taken, hleft]
  by_cases hwaits : 0 < c.leftBytes
  · rw [if_pos hwaits]
    obtain ⟨hmeasure, hroom⟩ := h.known hwaits
    have hcount : bytes.length ≤ c.leftBytes := by
      rwa [TcpConnection.readLimit, if_pos hwaits] at hlimit
    rw [if_neg (Nat.not_lt.mpr hcount)]
    have hstable : F.measure (pending ++ bytes) = .known (pending.length + c.leftBytes) := by
      rw [F.stable pending bytes (hmeasure ▸ FrameSize.known_ne_unknown), hmeasure]
    by_cases hwhole : c.leftBytes - bytes.length = 0
    · rw [if_pos hwhole, hw.unread]
      have hlast : c.leftBytes = bytes.length := by omega
      have hframe : F.IsFrame (pending ++ bytes) := by
        rw [Framing.IsFrame, hstable, List.length_append, hlast]
      obtain ⟨packet, hpacket⟩ := hframed.parsed _ hframe
      have hone := @Framing.cut_flatten_append _ F [pending ++ bytes]
        (fun f hf => by rw [List.mem_singleton.mp hf]; exact hframe) []
      rw [List.append_nil, List.flatten_singleton, Framing.frames_of_stuck Framing.stuck_nil,
        Framing.rest_of_stuck Framing.stuck_nil] at hone
      have hempty : 0 + kMinPacketBuffer ≤ kSmallBufferSize := by decide
      simp only [socketPacket, hpacket, Option.map_some]
      refine ⟨_, rfl, ?_, rfl, .inr ?_⟩
      · rw [hone.1, List.append_nil, List.map_singleton, hpacket, List.map_append]
        rfl
      · rw [hone.2]
        refine ⟨by rw [F.nil_unknown]; exact FrameSize.unknown_ne_invalid, buffered_small rfl rfl rfl ?_ hw.small rfl hw.error,
          fun _ => ⟨rfl, F.nil_unknown, hempty⟩, fun hpos' => absurd hpos' (Nat.lt_irrefl 0)⟩
        exact Nat.zero_le _
    · rw [if_neg hwhole]
      have hstuck : F.Stuck (pending ++ bytes) := by
        intro n hn
        rw [hstable] at hn
        cases hn
        rw [List.length_append]
        omega
      refine ⟨_, rfl, .of_stuck hstuck rfl rfl (hstable ▸ FrameSize.known_ne_invalid)
        ⟨⟨hw.unread, hw.size, hw.room, hw.small, hw.large, hw.error⟩, fun hzero => absurd hzero hwhole,
          fun _ => ⟨?_, ?_⟩⟩⟩
      · rw [hstable, List.length_append]
        show FrameSize.known _ = FrameSize.known (_ + (c.leftBytes - bytes.length))
        congr 1
        omega
      · show w.offsetBytes + w.readBytes + (c.leftBytes - bytes.length) ≤ w.buffer.length
        have hsize := hw.size
        have hpending := h.size
        rw [List.length_append] at hsize
        omega
  · have hzero : c.leftBytes = 0 := Nat.eq_zero_of_not_pos hwaits
    obtain ⟨hsmall, -, hspace⟩ := h.unknown hzero
    rw [hsmall] at hlarge
    rw [if_neg hwaits, hw.size]
    refine readPackets_eq hframed hw hlarge (hleft.trans hzero) (hoffset ▸ hspace) ?_ (.inl rfl)
      (Nat.lt_succ_self _)
    rw [← hw.size, ← buffer_small hlarge]
    exact hw.unread

section

variable {cipher : List UInt8 → List UInt8} {iv : List UInt8}

theorem readOnce_eq (hframed : protocol.Framed F) {arrived : List UInt8} (h : Waiting F c pending)
    (harrived : arrived ≠ []) :
    ∃ t bytes, bytes = CounterMode.xorFrom cipher iv c.received (arrived.take c.readLimit) ∧
      c.readOnce protocol cipher iv arrived = some (arrived.drop c.readLimit, t) ∧
      t.packets.map some =
        c.packets.map some ++ (F.frames (pending ++ bytes)).map (parsePacket protocol) ∧
      t.received = c.received + bytes.length ∧
      (F.measure (F.rest (pending ++ bytes)) = .invalid ∧ t.error = true ∧
          t.usingLargeBuffer = false ∨
        F.measure (F.rest (pending ++ bytes)) ≠ .invalid ∧
          Waiting F t (F.rest (pending ++ bytes))) := by
  obtain ⟨hpos, hroom⟩ := h.readLimit hframed
  obtain ⟨bytes, hbytes⟩ : ∃ bytes, bytes =
      CounterMode.xorFrom cipher iv c.received (arrived.take c.readLimit) := ⟨_, rfl⟩
  have hlength : bytes.length = min c.readLimit arrived.length := by
    rw [hbytes, CounterMode.length_xorFrom, List.length_take]
  have hnonempty := List.length_pos_of_ne_nil harrived
  obtain ⟨w, hw, hbuffered, husing, hleft, hoffset, hpackets, hreceived, hbuffer⟩ :=
    @Buffered.written c pending bytes h.toBuffered (by omega)
  obtain ⟨t, ht, hreads⟩ := taken_eq hframed h (by omega) hbuffered husing hleft hoffset
    hbuffer
  refine ⟨t, bytes, hbytes, ?_, ?_, ?_, hreads.rest⟩
  · have hgood : ¬(c.readLimit = 0 ∨ c.buffer.length < c.offsetBytes ∨
        (c.buffer.drop c.offsetBytes).length < c.readBytes ∨
        ((c.buffer.drop c.offsetBytes).drop c.readBytes).length < c.readLimit) := by
      simp only [List.length_drop]
      omega
    rw [readOnce]
    dsimp only
    rw [if_neg hgood, ← hbytes, hw, ht]
    rfl
  · rw [hreads.packets, hpackets]
  · rw [hreads.received, hreceived]

/-- The packets that come out depend on the bytes only, not on their pieces. -/
theorem readAll_eq (hframed : protocol.Framed F) {fuel : Nat} {arrived bytes : List UInt8}
    (h : Sofar protocol F c bytes) (hfuel : arrived.length < fuel) :
    ∃ t, c.readAll protocol cipher iv fuel arrived = some t ∧
      Sofar protocol F t (bytes ++ CounterMode.xorFrom cipher iv bytes.length arrived) := by
  induction fuel generalizing c bytes arrived with
  | zero => exact absurd hfuel (Nat.not_lt_zero _)
  | succ fuel ih =>
    rw [readAll]
    by_cases hnil : arrived = []
    · rw [if_pos (.inl hnil), hnil, CounterMode.xorFrom_nil, List.append_nil]
      exact ⟨c, rfl, h⟩
    obtain ⟨hpackets, ⟨hinvalid, herror, hsmall⟩ | ⟨-, hreceived, hwaiting⟩⟩ := h
    · rw [if_pos (.inr herror)]
      obtain ⟨hstuck, hmeasure⟩ := Framing.stuck_of_invalid hinvalid
        (CounterMode.xorFrom cipher iv bytes.length arrived)
      refine ⟨c, rfl, ?_, .inl ⟨?_, herror, hsmall⟩⟩
      · rw [Framing.frames_append, Framing.frames_of_stuck hstuck, List.append_nil]
        exact hpackets
      · rw [Framing.rest_append, Framing.rest_of_stuck hstuck]
        exact hmeasure
    · have herror : ¬(arrived = [] ∨ c.error = true) := by
        rw [hwaiting.error]
        simpa using hnil
      obtain ⟨t, read, hread, hcall, htpackets, htreceived, hrest⟩ :=
        @readOnce_eq protocol F c _ cipher iv hframed arrived hwaiting hnil
      have hlength : read.length = (arrived.take c.readLimit).length := by
        rw [hread, CounterMode.length_xorFrom]
      have hsofar : Sofar protocol F t (bytes ++ read) := by
        rw [Sofar, Framing.frames_append, Framing.rest_append, List.map_append, ← hpackets]
        refine ⟨htpackets, hrest.imp_right fun ⟨hvalid, hwaiting'⟩ => ⟨hvalid, ?_, hwaiting'⟩⟩
        rw [htreceived, hreceived, List.length_append]
      have hpos := (hwaiting.readLimit hframed).1
      have hdrop : (arrived.drop c.readLimit).length < fuel := by
        have hnonempty := List.length_pos_of_ne_nil hnil
        rw [List.length_drop]
        omega
      obtain ⟨u, hu, hsofar'⟩ := ih hsofar hdrop
      refine ⟨u, ?_, ?_⟩
      · rw [if_neg herror, hcall]
        exact hu
      · have hwhole : bytes ++ read ++ CounterMode.xorFrom cipher iv (bytes ++ read).length
            (arrived.drop c.readLimit) =
            bytes ++ CounterMode.xorFrom cipher iv bytes.length arrived := by
          have happend := @CounterMode.xorFrom_append cipher iv bytes.length
            (arrived.take c.readLimit) (arrived.drop c.readLimit)
          rw [List.take_append_drop] at happend
          rw [happend, List.append_assoc, List.length_append, hlength, hread, hreceived]
        rwa [hwhole] at hsofar'

/-- The small buffer is there before the first read. -/
def allotted (c : TcpConnection) : TcpConnection :=
  if c.smallBuffer = [] then { c with smallBuffer := .replicate kSmallBufferSize 0 } else c

theorem socketRead_eq (hframed : protocol.Framed F) {arrived bytes : List UInt8}
    (h : Sofar protocol F c.allotted bytes) :
    ∃ t, c.socketRead protocol cipher iv arrived = some t ∧
      Sofar protocol F t (bytes ++ CounterMode.xorFrom cipher iv bytes.length arrived) := by
  have hexpects : ¬(c.leftBytes = 0 ∧ c.usingLargeBuffer = true) := by
    rintro ⟨hleft, hlarge⟩
    have hallotted : c.allotted.leftBytes = 0 ∧ c.allotted.usingLargeBuffer = true := by
      rw [allotted]
      split <;> exact ⟨hleft, hlarge⟩
    obtain ⟨-, ⟨-, -, hsmall⟩ | ⟨-, -, hwaiting⟩⟩ := h
    · rw [hallotted.2] at hsmall
      cases hsmall
    · have hsmall := (hwaiting.unknown hallotted.1).1
      rw [hallotted.2] at hsmall
      cases hsmall
  obtain ⟨t, ht, hsofar⟩ :=
    @readAll_eq protocol F c.allotted cipher iv hframed _ arrived bytes h (Nat.lt_succ_self _)
  refine ⟨t, ?_, hsofar⟩
  rw [socketRead, if_neg hexpects]
  exact ht

theorem Sofar.allotted {bytes : List UInt8} (h : Sofar protocol F c bytes) :
    Sofar protocol F c.allotted bytes := by
  rw [TcpConnection.allotted]
  split
  · next hnil =>
    obtain ⟨hpackets, ⟨hinvalid, herror, hsmall⟩ | ⟨-, -, hwaiting⟩⟩ := h
    · exact ⟨hpackets, .inl ⟨hinvalid, herror, hsmall⟩⟩
    · have hlength := hwaiting.small
      rw [hnil] at hlength
      cases hlength
  · exact h

theorem socketReads_eq (hframed : protocol.Framed F) {arrivals : List (List UInt8)}
    {bytes : List UInt8} (h : Sofar protocol F c bytes) :
    ∃ t, arrivals.foldlM (socketRead protocol cipher iv) c = some t ∧
      Sofar protocol F t (bytes ++ CounterMode.xorFrom cipher iv bytes.length arrivals.flatten) := by
  induction arrivals generalizing c bytes with
  | nil =>
    rw [List.flatten_nil, CounterMode.xorFrom_nil, List.append_nil]
    exact ⟨c, rfl, h⟩
  | cons arrived arrivals ih =>
    obtain ⟨t, ht, hsofar⟩ := @socketRead_eq protocol F c cipher iv hframed arrived bytes h.allotted
    obtain ⟨u, hu, hlast⟩ := ih hsofar
    refine ⟨u, ?_, ?_⟩
    · rw [List.foldlM_cons, ht]
      exact hu
    · rwa [List.length_append, CounterMode.length_xorFrom, List.append_assoc,
        ← CounterMode.xorFrom_append, ← List.flatten_cons] at hlast

theorem sofar_nil (protocol : Protocol) (F : Framing UInt8) :
    Sofar protocol F (allotted {}) [] := by
  have hframes : F.frames [] = [] := Framing.frames_of_stuck Framing.stuck_nil
  have hrest : F.rest [] = [] := Framing.rest_of_stuck Framing.stuck_nil
  have hlength : (List.replicate kSmallBufferSize (0 : UInt8)).length = kSmallBufferSize :=
    List.length_replicate
  have hempty : 0 + kMinPacketBuffer ≤ kSmallBufferSize := by decide
  rw [Sofar, hframes, hrest, F.nil_unknown]
  refine ⟨rfl, .inr ⟨nofun, rfl, buffered_small rfl rfl rfl ?_ hlength rfl rfl,
    fun _ => ⟨rfl, F.nil_unknown, hempty⟩, fun hpos => absurd hpos (Nat.lt_irrefl 0)⟩⟩
  exact Nat.zero_le _

end

/-- AES for a block of zeros under a key of zeros. -/
def zeroCipher (block : List UInt8) : List UInt8 :=
  if block = .replicate 16 0 then
    [0xdc, 0x95, 0xc0, 0x78, 0xa2, 0x40, 0x89, 0x89, 0xad, 0x48, 0xa2, 0x14, 0x92, 0x84, 0x20, 0x87]
  else .replicate 16 0

end TcpConnection

end TelegramClient.Mtproto
