import TelegramClient.Lib.Bits
import TelegramClient.Lib.Words

/-! The packets of a connection over TCP (`mtproto/connection_tcp.cpp`), in the two forms of its
protocol. -/

namespace TelegramClient.Mtproto

open Words

def kPacketSizeMax : Nat := 0x01000000 * 4

inductive PacketLength where
  | unknown
  | invalid
  | known (size : Nat)
  deriving DecidableEq

/-- The words that a packet is made for, after two that are reserved. -/
def payload (buffer : List UInt32) : List UInt8 := bytesOf (buffer.drop 2)

def admitted (buffer : List UInt32) : Prop := 2 < buffer.length ∧ buffer.length < 0x1000003

instance (buffer : List UInt32) : Decidable (admitted buffer) := inferInstanceAs (Decidable (_ ∧ _))

namespace Version0

def finalizePacket (buffer : List UInt32) : Option (List UInt8) :=
  if admitted buffer then
    let intsSize := buffer.length - 2
    let bytesSize := intsSize * 4
    let data := bytesOf buffer
    if intsSize < 0x7F then
      let data := data.set 7 (UInt8.ofNat intsSize)
      some ((data.drop (8 - 1)).take (1 + bytesSize))
    else
      let data := (((data.set 4 0x7F).set 5 (UInt8.ofNat (intsSize &&& 0xFF))).set 6
        (UInt8.ofNat ((intsSize >>> 8) &&& 0xFF))).set 7 (UInt8.ofNat ((intsSize >>> 16) &&& 0xFF))
      some ((data.drop (8 - 4)).take (4 + bytesSize))
  else none

/-- Bytes from 128 on are negative as characters. -/
def readPacketLength (bytes : List UInt8) : PacketLength :=
  match bytes with
  | [] => .unknown
  | first :: rest =>
    if first = 0x7F then
      match rest with
      | a :: b :: c :: _ =>
        let ints := a.toNat ||| (b.toNat <<< 8) ||| (c.toNat <<< 16)
        if 0x7F ≤ ints then .known ((ints <<< 2) + 4) else .invalid
      | _ => .unknown
    else if 0 < first ∧ first < 0x7F then .known ((first.toNat <<< 2) + 1)
    else .invalid

def readPacket (bytes : List UInt8) : Option (List UInt8) :=
  match readPacketLength bytes with
  | .known size =>
    if size ≤ bytes.length then
      let sizeLength := if bytes.head? = some 0x7F then 4 else 1
      some ((bytes.drop sizeLength).take (size - sizeLength))
    else none
  | _ => none

end Version0

namespace VersionD

/-- `random` gives the padding, and `more` the words from which it is taken. -/
def finalizePacket (buffer : List UInt32) (random : UInt32) (more : Nat → UInt32) :
    Option (List UInt8) :=
  if admitted buffer then
    let intsSize := buffer.length - 2
    let padding := (random &&& 0x0F).toNat
    let bytesSize := intsSize * 4 + padding
    let buffer := buffer.set 1 (UInt32.ofNat bytesSize) ++
      (List.range ((padding + 3) / 4)).map more
    some (((bytesOf buffer).drop 4).take (4 + bytesSize))
  else none

def readPacketLength (bytes : List UInt8) : PacketLength :=
  match bytes with
  | a :: b :: c :: d :: _ =>
    let value := (leValue [a, b, c, d] + 4) % 2 ^ 32
    if 8 ≤ value ∧ value < kPacketSizeMax then .known value else .invalid
  | _ => .unknown

def readPacket (bytes : List UInt8) : Option (List UInt8) :=
  match readPacketLength bytes with
  | .known size =>
    if size ≤ bytes.length then some ((bytes.drop 4).take (size - 4)) else none
  | _ => none

end VersionD

/-- The packet is read back: its whole length, and what it was made for. -/
def ReadsBack (readPacketLength : List UInt8 → PacketLength)
    (readPacket : List UInt8 → Option (List UInt8)) (packet payload : List UInt8) : Prop :=
  readPacketLength packet = .known packet.length ∧ readPacket packet = some payload

variable {buffer : List UInt32} {packet : List UInt8}

theorem exists_reserved (h : admitted buffer) :
    ∃ a b c d e f g i : UInt8, bytesOf buffer = [a, b, c, d, e, f, g, i] ++ payload buffer := by
  obtain ⟨hlow, -⟩ := h
  match buffer, hlow with
  | first :: second :: rest, _ =>
    have hfour : ∀ word : UInt32, ∃ a b c d, leBytes 4 word.toNat = [a, b, c, d] :=
      fun word => ⟨_, _, _, _, rfl⟩
    obtain ⟨a, b, c, d, hfirst⟩ := hfour first
    obtain ⟨e, f, g, i, hsecond⟩ := hfour second
    exact ⟨a, b, c, d, e, f, g, i, by simp [hfirst, hsecond, payload]⟩

theorem length_payload (buffer : List UInt32) :
    (payload buffer).length = (buffer.length - 2) * 4 := by
  rw [payload, length_bytesOf, List.length_drop]
  omega

theorem and_255 (n : Nat) : n &&& 0xFF = n % 256 := Nat.and_two_pow_sub_one_eq_mod n 8

/-- The three bytes of a length. -/
theorem three_bytes (n : Nat) :
    (UInt8.ofNat (n &&& 0xFF)).toNat ||| ((UInt8.ofNat ((n >>> 8) &&& 0xFF)).toNat <<< 8) |||
      ((UInt8.ofNat ((n >>> 16) &&& 0xFF)).toNat <<< 16) = n % 2 ^ 24 := by
  simp only [UInt8.toNat_ofNat', Nat.reducePow, and_255, Nat.mod_mod, Nat.shiftRight_eq_div_pow,
    Nat.shiftLeft_eq]
  have hlow : n % 256 ||| n / 256 % 256 * 256 = n / 256 % 256 * 256 + n % 256 := by
    rw [Nat.or_comm]
    exact @Bits.mul_or (n % 256) (n / 256 % 256) 8 (by omega)
  rw [hlow, Nat.or_comm]
  have hall := @Bits.mul_or (n / 256 % 256 * 256 + n % 256) (n / 65536 % 256) 16 (by omega)
  norm_num at hall
  rw [hall]
  omega

namespace Version0

theorem finalizePacket_short (h : admitted buffer) (hshort : buffer.length - 2 < 0x7F) :
    finalizePacket buffer = some (UInt8.ofNat (buffer.length - 2) :: payload buffer) := by
  obtain ⟨a, b, c, d, e, f, g, i, hdata⟩ := exists_reserved h
  simp only [finalizePacket, if_pos h, if_pos hshort, hdata, ← length_payload]
  simp [Nat.add_comm 1]

theorem finalizePacket_long (h : admitted buffer) (hlong : ¬buffer.length - 2 < 0x7F) :
    finalizePacket buffer = some (0x7F :: UInt8.ofNat ((buffer.length - 2) &&& 0xFF) ::
      UInt8.ofNat (((buffer.length - 2) >>> 8) &&& 0xFF) ::
      UInt8.ofNat (((buffer.length - 2) >>> 16) &&& 0xFF) :: payload buffer) := by
  obtain ⟨a, b, c, d, e, f, g, i, hdata⟩ := exists_reserved h
  simp only [finalizePacket, if_pos h, if_neg hlong, hdata, ← length_payload]
  simp [Nat.add_comm 4]

/-- The length of 2 ^ 24 words is written as zero. -/
theorem readsBack_iff (h : admitted buffer) :
    (∃ packet, finalizePacket buffer = some packet ∧
      ReadsBack readPacketLength readPacket packet (payload buffer)) ↔ buffer.length ≠ 0x1000002 := by
  have hlength := length_payload buffer
  obtain ⟨hlow, hhigh⟩ := h
  by_cases hshort : buffer.length - 2 < 0x7F
  · refine iff_of_true ⟨_, finalizePacket_short ⟨hlow, hhigh⟩ hshort, ?_⟩ (by omega)
    have hvalue : (UInt8.ofNat (buffer.length - 2)).toNat = buffer.length - 2 := by
      rw [UInt8.toNat_ofNat']
      omega
    have hlt : UInt8.ofNat (buffer.length - 2) < 0x7F := by
      rw [UInt8.lt_iff_toNat_lt, hvalue]
      exact hshort
    have hpos : 0 < UInt8.ofNat (buffer.length - 2) := by
      rw [UInt8.lt_iff_toNat_lt, hvalue]
      exact Nat.sub_pos_of_lt hlow
    have hne : UInt8.ofNat (buffer.length - 2) ≠ 0x7F := UInt8.ne_of_lt hlt
    have hread : readPacketLength (UInt8.ofNat (buffer.length - 2) :: payload buffer) =
        .known ((payload buffer).length + 1) := by
      unfold readPacketLength
      simp only
      rw [if_neg hne, if_pos ⟨hpos, hlt⟩, hvalue, hlength, Nat.shiftLeft_eq]
    refine ⟨hread, ?_⟩
    simp [readPacket, hread, hne]
  · rw [finalizePacket_long ⟨hlow, hhigh⟩ hshort]
    simp only [Option.some.injEq, exists_eq_left', ReadsBack]
    have hread : ∀ size, readPacketLength (0x7F :: UInt8.ofNat ((buffer.length - 2) &&& 0xFF) ::
        UInt8.ofNat (((buffer.length - 2) >>> 8) &&& 0xFF) ::
        UInt8.ofNat (((buffer.length - 2) >>> 16) &&& 0xFF) :: payload buffer) = .known size ↔
        buffer.length ≠ 0x1000002 ∧ size = (payload buffer).length + 4 := by
      intro size
      rw [readPacketLength, if_pos rfl]
      simp only [three_bytes, hlength]
      rw [Nat.shiftLeft_eq]
      split
      · simp only [PacketLength.known.injEq]
        omega
      · simp only [reduceCtorEq, false_iff]
        omega
    constructor
    · rintro ⟨hsize, -⟩
      exact ((hread _).mp hsize).1
    · intro hne
      have hsize := (hread _).mpr ⟨hne, rfl⟩
      refine ⟨hsize, ?_⟩
      rw [readPacket, hsize]
      simp only [List.length_cons, List.head?_cons, if_true, Nat.add_sub_cancel]
      rw [if_pos le_rfl]
      simp only [List.drop_succ_cons, List.drop_zero, List.take_length]

end Version0

namespace VersionD

/-- The payload with its random padding. -/
def padded (buffer : List UInt32) (random : UInt32) (more : Nat → UInt32) : List UInt8 :=
  payload buffer ++ (bytesOf ((List.range (((random &&& 0x0F).toNat + 3) / 4)).map more)).take
    (random &&& 0x0F).toNat

variable {random : UInt32} {more : Nat → UInt32}

theorem length_padded :
    (padded buffer random more).length = (buffer.length - 2) * 4 + (random &&& 0x0F).toNat := by
  rw [padded, List.length_append, length_payload, List.length_take_of_le]
  rw [length_bytesOf, List.length_map, List.length_range]
  omega

theorem padding_le (random : UInt32) : (random &&& 0x0F).toNat ≤ 15 := by
  rw [UInt32.toNat_and]
  exact Nat.and_le_right

theorem finalizePacket_eq (h : admitted buffer) :
    finalizePacket buffer random more =
      some (leBytes 4 (padded buffer random more).length ++ padded buffer random more) := by
  obtain ⟨hlow, hhigh⟩ := h
  match buffer, hlow with
  | first :: second :: rest, hlow =>
    have hpadding := padding_le random
    have hrest : payload (first :: second :: rest) = bytesOf rest := rfl
    have hsize : ((first :: second :: rest).length - 2) * 4 + (random &&& 0x0F).toNat < 2 ^ 32 := by
      omega
    have hlength : (first :: second :: rest).length - 2 = rest.length := rfl
    rw [finalizePacket, if_pos ⟨hlow, hhigh⟩, length_padded]
    simp only [List.set_cons_succ, List.set_cons_zero, List.cons_append, bytesOf_cons,
      bytesOf_append, UInt32.toNat_ofNat_of_lt' hsize]
    rw [List.drop_left' (length_leBytes 4 first.toNat), List.take_append, length_leBytes,
      List.take_of_length_le (by simp), Nat.add_sub_cancel_left, padded, hrest, List.take_append,
      List.take_of_length_le (by rw [length_bytesOf, hlength]; omega), length_bytesOf, hlength]
    congr 4
    omega

theorem readPacketLength_padded (h : admitted buffer) (random : UInt32) (more : Nat → UInt32)
    (size : Nat) :
    readPacketLength (leBytes 4 (padded buffer random more).length ++ padded buffer random more) =
        .known size ↔
      size = (padded buffer random more).length + 4 ∧
        (buffer.length - 2) * 4 + (random &&& 0x0F).toNat + 4 < kPacketSizeMax := by
  obtain ⟨hlow, hhigh⟩ := h
  have hpadding := padding_le random
  have hlength := @length_padded buffer random more
  have hvalue : ∀ bytes : List UInt8, ∃ a b c d, leBytes 4 (padded buffer random more).length ++ bytes =
      a :: b :: c :: d :: bytes ∧ leValue [a, b, c, d] = (padded buffer random more).length := by
    intro bytes
    refine ⟨_, _, _, _, rfl, leValue_leBytes_of_lt (n := 4) ?_⟩
    rw [hlength]
    omega
  obtain ⟨a, b, c, d, hbytes, hleValue⟩ := hvalue (padded buffer random more)
  rw [hbytes, readPacketLength]
  simp only [hleValue, hlength, kPacketSizeMax]
  split
  · simp only [PacketLength.known.injEq]
    omega
  · simp only [reduceCtorEq, false_iff]
    omega

theorem readsBack_iff (h : admitted buffer) (read : List UInt8) :
    (∃ packet, finalizePacket buffer random more = some packet ∧
      ReadsBack readPacketLength readPacket packet read) ↔
      (buffer.length - 2) * 4 + (random &&& 0x0F).toNat + 4 < kPacketSizeMax ∧
        padded buffer random more = read := by
  rw [finalizePacket_eq h]
  simp only [Option.some.injEq, exists_eq_left', ReadsBack]
  rw [readPacketLength_padded h random more]
  simp only [List.length_append, length_leBytes, Nat.add_comm 4, true_and]
  refine and_congr_right fun hsize => ?_
  have hread := (readPacketLength_padded h random more _).mpr ⟨rfl, hsize⟩
  rw [readPacket, hread]
  simp [Nat.add_comm 4]

end VersionD

theorem packets_readBack_iff (buffer : List UInt32) (h : admitted buffer) (random : UInt32)
    (more : Nat → UInt32) :
    ((∃ packet, Version0.finalizePacket buffer = some packet ∧ ReadsBack Version0.readPacketLength
        Version0.readPacket packet (payload buffer)) ↔ buffer.length ≠ 0x1000002) ∧
    ((∃ packet, VersionD.finalizePacket buffer random more = some packet ∧ ReadsBack
        VersionD.readPacketLength VersionD.readPacket packet (VersionD.padded buffer random more)) ↔
      (buffer.length - 2) * 4 + (random &&& 0x0F).toNat + 4 < kPacketSizeMax) ∧
    ((∃ packet, VersionD.finalizePacket buffer random more = some packet ∧ ReadsBack
        VersionD.readPacketLength VersionD.readPacket packet (payload buffer)) ↔
      (buffer.length - 2) * 4 + 4 < kPacketSizeMax ∧ random &&& 0x0F = 0) := by
  refine ⟨Version0.readsBack_iff h, ?_, ?_⟩
  · rw [VersionD.readsBack_iff h]
    exact and_iff_left rfl
  · have hpadded : VersionD.padded buffer random more = payload buffer ↔ random &&& 0x0F = 0 := by
      constructor
      · intro heq
        have hlength := congrArg List.length heq
        rw [VersionD.length_padded, length_payload] at hlength
        have hzero : (random &&& 0x0F).toNat = 0 := by omega
        exact UInt32.toNat_inj.mp hzero
      · intro hzero
        simp [VersionD.padded, hzero]
    rw [VersionD.readsBack_iff h, hpadded]
    refine and_congr_left fun hzero => ?_
    rw [hzero]
    rfl

theorem packets_readBack_iff_one :
    let buffer : List UInt32 := [0, 0, 7]
    ((∃ packet, Version0.finalizePacket buffer = some packet ∧ ReadsBack Version0.readPacketLength
        Version0.readPacket packet (payload buffer)) ↔ buffer.length ≠ 0x1000002) ∧
    ((∃ packet, VersionD.finalizePacket buffer 5 (fun _ => 1) = some packet ∧
        ReadsBack VersionD.readPacketLength VersionD.readPacket packet
          (VersionD.padded buffer 5 fun _ => 1)) ↔
      (buffer.length - 2) * 4 + ((5 : UInt32) &&& 0x0F).toNat + 4 < kPacketSizeMax) ∧
    ((∃ packet, VersionD.finalizePacket buffer 5 (fun _ => 1) = some packet ∧ ReadsBack
        VersionD.readPacketLength VersionD.readPacket packet (payload buffer)) ↔
      (buffer.length - 2) * 4 + 4 < kPacketSizeMax ∧ (5 : UInt32) &&& 0x0F = 0) :=
  packets_readBack_iff [0, 0, 7] (by decide) 5 fun _ => 1

/-- The largest packet that is admitted: its length is not read in either version. -/
theorem largest_packet_is_invalid : ∃ buffer, admitted buffer ∧ buffer.length = 0x1000002 ∧
    (∃ packet, Version0.finalizePacket buffer = some packet ∧
      Version0.readPacketLength packet = .invalid) ∧
    ∀ random more packet, VersionD.finalizePacket buffer random more = some packet →
      ∀ size, VersionD.readPacketLength packet ≠ .known size := by
  have hlength : (List.replicate 0x1000002 (0 : UInt32)).length = 0x1000002 := List.length_replicate
  generalize List.replicate 0x1000002 (0 : UInt32) = buffer at hlength
  have hadmitted : admitted buffer := by
    rw [admitted, hlength]
    decide
  refine ⟨buffer, hadmitted, hlength, ?_, ?_⟩
  · refine ⟨_, Version0.finalizePacket_long hadmitted (by rw [hlength]; decide), ?_⟩
    rw [hlength]
    rfl
  · intro random more packet hpacket size hsize
    rw [VersionD.finalizePacket_eq hadmitted, Option.some.injEq] at hpacket
    rw [← hpacket, VersionD.readPacketLength_padded hadmitted, hlength] at hsize
    have hlt := hsize.2
    simp only [kPacketSizeMax] at hlt
    omega

end TelegramClient.Mtproto
