import TelegramClient.Lib.Bits

/-! The ids of peers (`data/data_types.h`): the id of a user, a chat or a channel with its type in
the bits above. -/

namespace TelegramClient.Data

abbrev PeerId := UInt64

def peerIdMask : PeerId := 0xFFFFFFFF

def peerIdTypeMask : PeerId := 0x300000000

def peerIdUserShift : PeerId := 0x000000000

def peerIdChatShift : PeerId := 0x100000000

def peerIdChannelShift : PeerId := 0x200000000

def hasShift (shift id : PeerId) : Bool := id &&& peerIdTypeMask == shift

def peerIsUser (id : PeerId) : Bool := hasShift peerIdUserShift id

def peerIsChat (id : PeerId) : Bool := hasShift peerIdChatShift id

def peerIsChannel (id : PeerId) : Bool := hasShift peerIdChannelShift id

def peerOfShift (shift : PeerId) (bareId : Int32) : PeerId := shift ||| bareId.toUInt32.toUInt64

def peerFromUser (userId : Int32) : PeerId := peerOfShift peerIdUserShift userId

def peerFromChat (chatId : Int32) : PeerId := peerOfShift peerIdChatShift chatId

def peerFromChannel (channelId : Int32) : PeerId := peerOfShift peerIdChannelShift channelId

def peerToBareInt (id : PeerId) : Int32 := (id &&& peerIdMask).toUInt32.toInt32

/-- The id of a user, a chat or a channel. -/
def IsPeer (id : PeerId) : Prop :=
  ∃ bareId, id = peerFromUser bareId ∨ id = peerFromChat bareId ∨ id = peerFromChannel bareId

variable {shift shift' : PeerId} {k : Nat}

theorem toNat_peerOfShift (h : shift.toNat = k * 2 ^ 32) (bareId : Int32) :
    (peerOfShift shift bareId).toNat = k * 2 ^ 32 + bareId.toUInt32.toNat := by
  rw [peerOfShift, UInt64.toNat_or, h, UInt32.toNat_toUInt64, Bits.mul_or bareId.toUInt32.toNat_lt]

theorem hasShift_peerOfShift (hk : k < 4) (h : shift.toNat = k * 2 ^ 32) (bareId : Int32) :
    hasShift shift' (peerOfShift shift bareId) = (shift == shift') := by
  have hbare := bareId.toUInt32.toNat_lt
  have hmask : peerOfShift shift bareId &&& peerIdTypeMask = shift := by
    apply UInt64.toNat_inj.mp
    rw [UInt64.toNat_and, toNat_peerOfShift h, h]
    have hupper := @Bits.and_upper (k * 2 ^ 32 + bareId.toUInt32.toNat) 32 2 (by omega)
    have hdiv : (k * 2 ^ 32 + bareId.toUInt32.toNat) / 2 ^ 32 = k := by omega
    rw [hdiv] at hupper
    exact hupper
  rw [hasShift, hmask]

theorem peerToBareInt_peerOfShift (h : shift.toNat = k * 2 ^ 32) (bareId : Int32) :
    peerToBareInt (peerOfShift shift bareId) = bareId := by
  have hbare := bareId.toUInt32.toNat_lt
  have hword : (peerOfShift shift bareId &&& peerIdMask).toUInt32 = bareId.toUInt32 := by
    apply UInt32.toNat_inj.mp
    have hmask : peerIdMask.toNat = 2 ^ 32 - 1 := rfl
    rw [UInt64.toNat_toUInt32, UInt64.toNat_and, toNat_peerOfShift h, hmask,
      Nat.and_two_pow_sub_one_eq_mod]
    omega
  rw [peerToBareInt, hword]
  exact Int32.toInt32_toUInt32 bareId

end TelegramClient.Data
