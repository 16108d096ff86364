import Mathlib
import TelegramClient.Storage.DataStream

/-! The addresses of the datacenters (`mtproto/dc_options.cpp`): how they are gathered from
the built-in list, the server and other settings, and how they are saved and restored. -/

namespace TelegramClient

/-- `DcId` and `ShiftedDcId`. -/
abbrev DcId := Int32

structure Endpoint where
  id : DcId
  flags : Int32
  ip : List UInt8
  port : Int32
  secret : List UInt8
  deriving DecidableEq, Repr

/-- A valid key: its modulus and its exponent. -/
structure RSAPublicKey where
  n : Nat
  e : Nat
  deriving DecidableEq, Repr

abbrev EndpointMap := Std.ExtTreeMap DcId (List Endpoint)

abbrev CdnKeyMap := Std.ExtTreeMap DcId (Std.ExtTreeMap Nat RSAPublicKey)

structure DcOptions where
  data : EndpointMap := ∅
  cdnPublicKeys : CdnKeyMap := ∅
  immutable : Bool := false

def kDcShift : Int32 := 10000

def kTemporaryMainDc : Int32 := 1000

def BareDcId (shiftedDcId : DcId) : DcId := shiftedDcId % kDcShift

def isTemporaryDcId (shiftedDcId : DcId) : Bool :=
  decide (kTemporaryMainDc ≤ BareDcId shiftedDcId)

/-! ### Keys -/

namespace RSAPublicKey

/-- `BN_bn2bin` into `BN_num_bytes` bytes. -/
def toBytes (number : Nat) : List UInt8 := (leBytes ((Nat.size number + 7) / 8) number).reverse

def getN (key : RSAPublicKey) : List UInt8 := toBytes key.n

def getE (key : RSAPublicKey) : List UInt8 := toBytes key.e

/-- `BN_bin2bn` takes any bytes, so the key is always valid. -/
def ofBytes (nBytes eBytes : List UInt8) : RSAPublicKey where
  n := leValue nBytes.reverse
  e := leValue eBytes.reverse

/-- `MTPstring::write`: the length, the bytes, and zeros up to a whole number of words. -/
def mtpBytes (v : List UInt8) : List UInt8 :=
  let l := v.length
  let header := if l < 254 then [.ofNat l] else 254 :: leBytes 3 l
  let s := header.length + l
  header ++ v ++ List.replicate ((s + 3) / 4 * 4 - s) 0

/-- The lower half of the last bytes of the SHA-1 of both numbers. -/
def getFingerPrint (sha1 : List UInt8 → List UInt8) (key : RSAPublicKey) : Nat :=
  leValue (((sha1 (mtpBytes key.getN ++ mtpBytes key.getE)).drop 12).take 8)

end RSAPublicKey

/-! ### Endpoints from every side -/

/-- `MTPDdcOption`. -/
structure MtpDcOption where
  flags : Int32
  id : Int32
  ip_address : List UInt8
  port : Int32
  secret : List UInt8
  deriving DecidableEq, Repr

def f_static : Int32 := 0x10

def f_secret : Int32 := 0x400

def MtpDcOption.has_secret (option : MtpDcOption) : Bool := option.flags &&& f_secret != 0

/-- `MTPDcdnPublicKey`: the key is text in one of the PEM formats. -/
structure MtpCdnPublicKey where
  dc_id : Int32
  public_key : List UInt8
  deriving DecidableEq, Repr

namespace DcOptions

/-- Returns the new map and whether the endpoint was new. -/
def applyOneOption (data : EndpointMap) (dcId : DcId) (flags : Int32) (ip : List UInt8)
    (port : Int32) (secret : List UInt8) : EndpointMap × Bool :=
  match data[dcId]? with
  | some endpoints =>
    if endpoints.any (fun endpoint => endpoint.ip == ip && endpoint.port == port) then (data, false)
    else (data.insert dcId (endpoints ++ [⟨dcId, flags, ip, port, secret⟩]), true)
  | none => (data.insert dcId [⟨dcId, flags, ip, port, secret⟩], true)

def applyEndpoint (data : EndpointMap) (e : Endpoint) : EndpointMap :=
  (applyOneOption data e.id e.flags e.ip e.port e.secret).1

/-- Only the addresses and ports are compared. -/
def equalEndpoints (m n : List Endpoint) : Bool :=
  m.length == n.length && m.all fun what =>
    n.any fun endpoint => endpoint.ip == what.ip && endpoint.port == what.port

def countOptionsDifference : List (DcId × List Endpoint) → List (DcId × List Endpoint) → List DcId
  | [], [] => []
  | (aId, _) :: a, [] => aId :: countOptionsDifference a []
  | [], (bId, _) :: b => bId :: countOptionsDifference [] b
  | (aId, m) :: a, (bId, n) :: b =>
    if aId < bId then aId :: countOptionsDifference a ((bId, n) :: b)
    else if bId < aId then bId :: countOptionsDifference ((aId, m) :: a) b
    else if equalEndpoints m n then countOptionsDifference a b
    else aId :: countOptionsDifference a b
  termination_by a b => a.length + b.length

def kBuiltInDcs (testMode : Bool) : List (DcId × String × Int32) :=
  if testMode then
    [(1, "149.154.175.10", 443), (2, "149.154.167.40", 443), (3, "149.154.175.117", 443)]
  else
    [(2, "chat.imshanl.com", 12345), (2, "43.254.156.36", 12345), (2, "47.56.159.121", 12345)]

def stringBytes (s : String) : List UInt8 := s.toUTF8.toList

/-- `ipTxt` is the first line of the file `ip.txt`, trimmed, and the number in its second
line, when there is such a file. -/
def constructFromBuiltIn (o : DcOptions) (ipTxt : Option (List UInt8 × Int32)) (testMode : Bool) :
    DcOptions :=
  match ipTxt with
  | some (ip, port) =>
    { o with data := (applyOneOption ∅ 2 f_static ip (if 0 < port then port else 12345) []).1 }
  | none =>
    { o with data := (kBuiltInDcs testMode).foldl (fun data bdc =>
        (applyOneOption data bdc.1 f_static (stringBytes bdc.2.1) bdc.2.2 []).1) ∅ }

/-- The loop of `processFromList`. An option of a wrong type is `none`. -/
def applyOptions (data : EndpointMap) (options : List (Option MtpDcOption)) : EndpointMap :=
  options.foldl (fun data mtpOption =>
    match mtpOption with
    | none => data
    | some option =>
      (applyOneOption data option.id option.flags option.ip_address option.port
        (if option.has_secret then option.secret else [])).1) data

/-- `internalUse` is set for the whole process once an `ip.txt` was read. -/
def processFromList (o : DcOptions) (internalUse : Bool) (options : List (Option MtpDcOption))
    (overwrite : Bool) : DcOptions :=
  if options = [] ∨ o.immutable ∨ internalUse then o
  else
    let data := applyOptions (if overwrite then ∅ else o.data) options
    if countOptionsDifference o.data.toList data.toList = [] then o else { o with data }

def setFromList (o : DcOptions) (internalUse : Bool) (options : List (Option MtpDcOption)) :
    DcOptions := o.processFromList internalUse options true

def addFromList (o : DcOptions) (internalUse : Bool) (options : List (Option MtpDcOption)) :
    DcOptions := o.processFromList internalUse options false

/-- `_cdnPublicKeys[dcId].emplace(fingerprint, key)`: a key that is there stays. -/
def emplaceKey (keys : CdnKeyMap) (dcId : DcId) (fingerprint : Nat) (key : RSAPublicKey) :
    CdnKeyMap :=
  keys.insert dcId ((keys.getD dcId ∅).insertIfNew fingerprint key)

def addFromOther (o options : DcOptions) : DcOptions :=
  if o.immutable ∨ options.data.isEmpty then o
  else
    { o with
      data := options.data.toList.foldl (fun data item => item.2.foldl applyEndpoint data) o.data
      cdnPublicKeys := options.cdnPublicKeys.toList.foldl (fun keys item =>
        item.2.toList.foldl (fun keys entry => emplaceKey keys item.1 entry.1 entry.2) keys)
        o.cdnPublicKeys }

variable (sha1 : List UInt8 → List UInt8)

/-- `readPem` is the parser of the keys in the cryptographic library. -/
def setCDNConfig (readPem : List UInt8 → Option RSAPublicKey) (o : DcOptions)
    (public_keys : List MtpCdnPublicKey) : DcOptions :=
  { o with cdnPublicKeys := public_keys.foldl (fun keys publicKey =>
      match readPem publicKey.public_key with
      | some key => emplaceKey keys publicKey.dc_id (key.getFingerPrint sha1) key
      | none => keys) ∅ }

/-! ### Saving -/

open DataStream

def serializeEndpoint (e : Endpoint) : List UInt8 :=
  writeInt32 e.id ++ writeInt32 e.flags ++ writeInt32 e.port ++ writeInt32 (.ofNat e.ip.length) ++
    e.ip ++ writeInt32 (.ofNat e.secret.length) ++ e.secret

/-- The endpoints that are saved, in their order. -/
def savedEndpoints (data : EndpointMap) : List Endpoint :=
  data.toList.flatMap fun item => if isTemporaryDcId item.1 then [] else item.2

def savedKeys (keys : CdnKeyMap) : List (DcId × RSAPublicKey) :=
  keys.toList.flatMap fun item => item.2.toList.map fun entry => (item.1, entry.2)

def serializeKey (entry : DcId × RSAPublicKey) : List UInt8 :=
  writeInt32 entry.1 ++ writeBytes entry.2.getN ++ writeBytes entry.2.getE

def kVersion : Int32 := 1

/-- Options overriden by a file are not saved. -/
def serialize (o : DcOptions) : List UInt8 :=
  let endpoints := savedEndpoints (if o.immutable then ∅ else o.data)
  let publicKeys := savedKeys (if o.immutable then ∅ else o.cdnPublicKeys)
  writeInt32 (-kVersion) ++ writeInt32 (.ofNat endpoints.length) ++
    endpoints.flatMap serializeEndpoint ++ writeInt32 (.ofNat publicKeys.length) ++
    publicKeys.flatMap serializeKey

/-! ### Restoring -/

def kMaxIpSize : Int32 := 45

def kMaxSecretSize : Int32 := 32

def readSecret (version : Int32) : Reader (List UInt8) := do
  if 0 < version then
    let secretSize ← readInt32
    stopUnless (0 ≤ secretSize && secretSize ≤ kMaxSecretSize)
    if 0 < secretSize then
      readRaw secretSize.toNatClampNeg
    else
      return []
  else
    return []

def readEndpoint (version : Int32) : Reader Endpoint := do
  let id ← readInt32
  let flags ← readInt32
  let port ← readInt32
  let ipSize ← readInt32
  stopUnless (0 < ipSize && ipSize ≤ kMaxIpSize)
  let ip ← readRaw ipSize.toNatClampNeg
  let secret ← readSecret version
  let ok ← status
  stopUnless ok
  return ⟨id, flags, ip, port, secret⟩

/-- The loop over the endpoints: `none` is the end of the function on an error. -/
def readEndpoints (version : Int32) : Nat → EndpointMap → Source → EndpointMap × Option Source
  | 0, data, s => (data, some s)
  | n + 1, data, s =>
    match readEndpoint version s with
    | none => (data, none)
    | some (e, s) => readEndpoints version n (applyEndpoint data e) s

def readKey : Reader (DcId × RSAPublicKey) := do
  let dcId ← readInt32
  let n ← readBytes
  let e ← readBytes
  let ok ← status
  stopUnless ok
  return (dcId, .ofBytes n e)

def readKeys : Nat → CdnKeyMap → Source → CdnKeyMap
  | 0, keys, _ => keys
  | n + 1, keys, s =>
    match readKey s with
    | none => keys
    | some (entry, s) =>
      readKeys n (emplaceKey keys entry.1 (entry.2.getFingerPrint sha1) entry.2) s

/-- How often a loop `for (auto i = 0; i != count; ++i)` goes round: with a negative count
it goes on until the stream is at its end, which stops the function. -/
def rounds (count : Int32) (s : Source) : Nat :=
  if count < 0 then s.bytes.length + 1 else count.toNatClampNeg

/-- The version and the number of endpoints: an old format begins with the number. -/
def readHeader : Reader (Int32 × Int32) := do
  let minusVersion ← readInt32
  let version := if minusVersion < 0 then -minusVersion else 0
  let count ← if 0 < version then readInt32 else pure minusVersion
  let ok ← status
  stopUnless ok
  return (version, count)

def readCount : Reader Int32 := do
  let count ← readInt32
  let ok ← status
  stopUnless ok
  return count

def restoreKeys (keys : CdnKeyMap) (s : Source) : CdnKeyMap :=
  if s.bytes = [] then keys
  else
    match readCount s with
    | none => keys
    | some (count, s) => readKeys sha1 (rounds count s) keys s

def constructFromSerialized (o : DcOptions) (serialized : List UInt8) : DcOptions :=
  match readHeader ⟨serialized, true⟩ with
  | none => o
  | some (header, s) =>
    let endpoints := readEndpoints header.1 (rounds header.2 s) ∅ s
    { o with
      data := endpoints.1
      cdnPublicKeys :=
        match endpoints.2 with
        | none => o.cdnPublicKeys
        | some s => restoreKeys sha1 o.cdnPublicKeys s }

/-! ### Reachable states -/

/-- The states reached by the calls that gather options. -/
inductive Reachable (readPem : List UInt8 → Option RSAPublicKey) : DcOptions → Prop
  | fresh : Reachable readPem {}
  | builtIn {o : DcOptions} (h : Reachable readPem o) (ipTxt : Option (List UInt8 × Int32))
      (testMode : Bool) : Reachable readPem (o.constructFromBuiltIn ipTxt testMode)
  | setFromList {o : DcOptions} (h : Reachable readPem o) (internalUse : Bool)
      (options : List (Option MtpDcOption)) : Reachable readPem (o.setFromList internalUse options)
  | addFromList {o : DcOptions} (h : Reachable readPem o) (internalUse : Bool)
      (options : List (Option MtpDcOption)) : Reachable readPem (o.addFromList internalUse options)
  | addFromOther {o options : DcOptions} (h : Reachable readPem o) (h' : Reachable readPem options) :
      Reachable readPem (o.addFromOther options)
  | setCDNConfig {o : DcOptions} (h : Reachable readPem o) (public_keys : List MtpCdnPublicKey) :
      Reachable readPem (o.setCDNConfig sha1 readPem public_keys)

end DcOptions

end TelegramClient
