import Mathlib
import TelegramClient.Mtproto.DcOptions
import TelegramClient.Lib.TreeMap

/-! Saved datacenter options are restored as they were, unless an endpoint that was accepted
from the outside is one that the reader refuses. -/

namespace TelegramClient.DcOptions

open DataStream

/-- What the reader accepts. -/
def Readable (e : Endpoint) : Prop :=
  0 < e.ip.length ∧ e.ip.length ≤ 45 ∧ e.secret.length ≤ 32

instance (e : Endpoint) : Decidable (Readable e) :=
  inferInstanceAs (Decidable (_ ∧ _))

/-! ### One endpoint -/

theorem readSecret_append {secret : List UInt8} (hl : secret.length < 2 ^ 31) (rest : List UInt8) :
    readSecret 1 ⟨writeInt32 (.ofNat secret.length) ++ (secret ++ rest), true⟩ =
      if secret.length ≤ 32 then some (secret, ⟨rest, true⟩) else none := by
  have hone : (0 : Int32) < 1 := by decide
  have hsize : decide (Int32.ofNat secret.length ≤ kMaxSecretSize) = decide (secret.length ≤ 32) :=
    decide_eq_decide.mpr (Int32.ofNat_le_iff_le hl (by decide))
  have hzero : decide (0 ≤ Int32.ofNat secret.length) = true :=
    decide_eq_true (Int32.zero_le_ofNat_of_lt hl)
  rw [readSecret, if_pos hone, bind_some (readInt32_append _ _ _), hzero, hsize, Bool.true_and]
  by_cases hle : secret.length ≤ 32
  · rw [stopUnless_true _ (decide_eq_true hle), if_pos hle]
    by_cases hpos : 0 < Int32.ofNat secret.length
    · rw [if_pos hpos, Int32.toNatClampNeg_ofNat_of_lt hl, readRaw_append]
    · have hempty : secret = [] := by
        by_contra hne
        have := List.length_pos_iff.mpr hne
        exact hpos ((Int32.ofNat_lt_iff_lt (by decide) hl).mpr this)
      rw [if_neg hpos, hempty]
      rfl
  · rw [stopUnless_false _ (decide_eq_false hle), if_neg hle]

theorem readEndpoint_append {e : Endpoint} (hip : e.ip.length < 2 ^ 31)
    (hsecret : e.secret.length < 2 ^ 31) (rest : List UInt8) :
    readEndpoint 1 ⟨serializeEndpoint e ++ rest, true⟩ =
      if Readable e then some (e, ⟨rest, true⟩) else none := by
  have hpos : decide (0 < Int32.ofNat e.ip.length) = decide (0 < e.ip.length) :=
    decide_eq_decide.mpr (Int32.ofNat_lt_iff_lt (by decide) hip)
  have hmax : decide (Int32.ofNat e.ip.length ≤ kMaxIpSize) = decide (e.ip.length ≤ 45) :=
    decide_eq_decide.mpr (Int32.ofNat_le_iff_le hip (by decide))
  rw [serializeEndpoint, readEndpoint]
  simp only [List.append_assoc]
  rw [bind_some (readInt32_append _ _ _), bind_some (readInt32_append _ _ _),
    bind_some (readInt32_append _ _ _), bind_some (readInt32_append _ _ _), hpos, hmax]
  by_cases hgood : 0 < e.ip.length ∧ e.ip.length ≤ 45
  · rw [stopUnless_true _ (by simpa using hgood), Int32.toNatClampNeg_ofNat_of_lt hip,
      bind_some (readRaw_append _ _ _)]
    by_cases hle : e.secret.length ≤ 32
    · have hread := readSecret_append hsecret rest
      rw [if_pos hle] at hread
      rw [bind_some hread, if_pos ⟨hgood.1, hgood.2, hle⟩]
      rfl
    · have hread := readSecret_append hsecret rest
      rw [if_neg hle] at hread
      rw [bind_none hread, if_neg (fun h => hle h.2.2)]
  · rw [stopUnless_false _ (by simpa using hgood), if_neg (fun h => hgood ⟨h.1, h.2.1⟩)]

/-! ### All of them -/

/-- The endpoints before the first one that the reader refuses. -/
def readableFront (l : List Endpoint) : List Endpoint := l.takeWhile (fun e => decide (Readable e))

theorem readEndpoints_append {l : List Endpoint}
    (hl : ∀ e ∈ l, e.ip.length < 2 ^ 31 ∧ e.secret.length < 2 ^ 31) (data : EndpointMap)
    (rest : List UInt8) :
    readEndpoints 1 l.length data ⟨l.flatMap serializeEndpoint ++ rest, true⟩ =
      ((readableFront l).foldl applyEndpoint data,
        if ∀ e ∈ l, Readable e then some ⟨rest, true⟩ else none) := by
  induction l generalizing data with
  | nil => simp [readEndpoints, readableFront]
  | cons e l ih =>
    rw [List.forall_mem_cons] at hl
    have hread := readEndpoint_append hl.1.1 hl.1.2 (l.flatMap serializeEndpoint ++ rest)
    rw [List.flatMap_cons, List.append_assoc, List.length_cons, readEndpoints, hread]
    by_cases hgood : Readable e
    · rw [if_pos hgood]
      dsimp only
      rw [ih hl.2]
      simp [readableFront, hgood]
    · rw [if_neg hgood]
      simp [readableFront, hgood]

theorem leValue_toBytes (number : Nat) : leValue (RSAPublicKey.toBytes number).reverse = number := by
  have hsize : number < 2 ^ Nat.size number := Nat.lt_size_self number
  have hle : 2 ^ Nat.size number ≤ 256 ^ ((Nat.size number + 7) / 8) := by
    rw [show (256 : Nat) = 2 ^ 8 by decide, ← Nat.pow_mul]
    exact Nat.pow_le_pow_right (by decide) (by omega)
  rw [RSAPublicKey.toBytes, List.reverse_reverse, leValue_leBytes_of_lt (by omega)]

theorem ofBytes_get (key : RSAPublicKey) : RSAPublicKey.ofBytes key.getN key.getE = key := by
  rw [RSAPublicKey.ofBytes, RSAPublicKey.getN, RSAPublicKey.getE, leValue_toBytes, leValue_toBytes]

theorem readKey_append {entry : DcId × RSAPublicKey}
    (hn : entry.2.getN.length < 2 ^ 31) (he : entry.2.getE.length < 2 ^ 31) (rest : List UInt8) :
    readKey ⟨serializeKey entry ++ rest, true⟩ = some (entry, ⟨rest, true⟩) := by
  rw [serializeKey, readKey]
  simp only [List.append_assoc]
  rw [bind_some (readInt32_append _ _ _), bind_some (readBytes_append hn _),
    bind_some (readBytes_append he _), ofBytes_get]
  rfl

variable (sha1 : List UInt8 → List UInt8)

def emplaceEntry (keys : CdnKeyMap) (entry : DcId × RSAPublicKey) : CdnKeyMap :=
  emplaceKey keys entry.1 (entry.2.getFingerPrint sha1) entry.2

theorem readKeys_append {l : List (DcId × RSAPublicKey)}
    (hl : ∀ entry ∈ l, entry.2.getN.length < 2 ^ 31 ∧ entry.2.getE.length < 2 ^ 31)
    (keys : CdnKeyMap) :
    readKeys sha1 l.length keys ⟨l.flatMap serializeKey, true⟩ = l.foldl (emplaceEntry sha1) keys := by
  induction l generalizing keys with
  | nil => rfl
  | cons entry l ih =>
    rw [List.forall_mem_cons] at hl
    rw [List.flatMap_cons, List.length_cons, readKeys, readKey_append hl.1.1 hl.1.2]
    exact ih hl.2 _

/-! ### The whole stream -/

theorem length_writeInt32 (v : Int32) : (writeInt32 v).length = 4 := length_writeUInt32 _

theorem length_serializeEndpoint (e : Endpoint) :
    (serializeEndpoint e).length = 20 + e.ip.length + e.secret.length := by
  simp only [serializeEndpoint, List.length_append, length_writeInt32]
  omega

theorem length_le_serializeKey (entry : DcId × RSAPublicKey) :
    4 + entry.2.getN.length + entry.2.getE.length ≤ (serializeKey entry).length := by
  have hbytes : ∀ bytes : List UInt8, bytes.length ≤ (writeBytes bytes).length := by
    intro bytes
    rw [writeBytes]
    split
    · next h => simp [h]
    · rw [List.length_append]
      omega
  have hn := hbytes entry.2.getN
  have he := hbytes entry.2.getE
  simp only [serializeKey, List.length_append, length_writeInt32]
  omega

theorem length_le_flatMap {l : List α} {g : α → List UInt8} (hg : ∀ a, 0 < (g a).length) :
    l.length ≤ (l.flatMap g).length ∧ ∀ a ∈ l, (g a).length ≤ (l.flatMap g).length := by
  induction l with
  | nil => simp
  | cons a l ih =>
    have ha := hg a
    rw [List.flatMap_cons, List.length_append, List.length_cons, List.forall_mem_cons]
    refine ⟨by omega, by omega, ?_⟩
    intro b hb
    have := ih.2 b hb
    omega

theorem rounds_ofNat {n : Nat} (hn : n < 2 ^ 31) (s : Source) : rounds (.ofNat n) s = n := by
  have hzero : ¬Int32.ofNat n < 0 := Int32.not_lt.mpr (Int32.zero_le_ofNat_of_lt hn)
  rw [rounds, if_neg hzero, Int32.toNatClampNeg_ofNat_of_lt hn]

theorem readHeader_append (count : Int32) (rest : List UInt8) :
    readHeader ⟨writeInt32 (-kVersion) ++ (writeInt32 count ++ rest), true⟩ =
      some ((1, count), ⟨rest, true⟩) := by
  have hversion : (if -kVersion < 0 then - -kVersion else 0) = 1 := by decide
  rw [readHeader, bind_some (readInt32_append _ _ _)]
  dsimp only
  rw [hversion, if_pos (by decide), bind_some (readInt32_append _ _ _)]
  rfl

theorem constructFromSerialized_serialize {o : DcOptions} (himmutable : o.immutable = false)
    (hfits : o.serialize.length < 2 ^ 31) :
    (constructFromSerialized sha1 {} o.serialize).data =
        (readableFront (savedEndpoints o.data)).foldl applyEndpoint ∅ ∧
      (constructFromSerialized sha1 {} o.serialize).cdnPublicKeys =
        if ∀ e ∈ savedEndpoints o.data, Readable e then
          (savedKeys o.cdnPublicKeys).foldl (emplaceEntry sha1) ∅
        else ∅ := by
  have hserialize : o.serialize = writeInt32 (-kVersion) ++
      (writeInt32 (.ofNat (savedEndpoints o.data).length) ++
      ((savedEndpoints o.data).flatMap serializeEndpoint ++
      (writeInt32 (.ofNat (savedKeys o.cdnPublicKeys).length) ++
      (savedKeys o.cdnPublicKeys).flatMap serializeKey))) := by
    simp only [serialize, himmutable, Bool.false_eq_true, if_false, List.append_assoc]
  rw [hserialize] at hfits ⊢
  simp only [List.length_append] at hfits
  have hendpoints := length_le_flatMap (l := savedEndpoints o.data) (g := serializeEndpoint)
    (by intro e; rw [length_serializeEndpoint]; omega)
  have hkeys := length_le_flatMap (l := savedKeys o.cdnPublicKeys) (g := serializeKey)
    (by intro entry; have := length_le_serializeKey entry; omega)
  have hsizes : ∀ e ∈ savedEndpoints o.data, e.ip.length < 2 ^ 31 ∧ e.secret.length < 2 ^ 31 := by
    intro e he
    have hle := hendpoints.2 e he
    rw [length_serializeEndpoint] at hle
    omega
  have hkeySizes : ∀ entry ∈ savedKeys o.cdnPublicKeys,
      entry.2.getN.length < 2 ^ 31 ∧ entry.2.getE.length < 2 ^ 31 := by
    intro entry hentry
    have hle := hkeys.2 entry hentry
    have hpart := length_le_serializeKey entry
    omega
  rw [constructFromSerialized, readHeader_append]
  dsimp only
  rw [rounds_ofNat (by omega), readEndpoints_append hsizes]
  refine ⟨rfl, ?_⟩
  by_cases hall : ∀ e ∈ savedEndpoints o.data, Readable e
  · rw [if_pos hall, if_pos hall]
    dsimp only
    have hne : writeInt32 (.ofNat (savedKeys o.cdnPublicKeys).length) ++
        (savedKeys o.cdnPublicKeys).flatMap serializeKey ≠ [] := by
      intro h
      have hlen := congrArg List.length h
      rw [List.length_append, length_writeInt32, List.length_nil] at hlen
      omega
    have hcount : readCount ⟨writeInt32 (.ofNat (savedKeys o.cdnPublicKeys).length) ++
        (savedKeys o.cdnPublicKeys).flatMap serializeKey, true⟩ =
        some (.ofNat (savedKeys o.cdnPublicKeys).length,
          ⟨(savedKeys o.cdnPublicKeys).flatMap serializeKey, true⟩) := by
      rw [readCount, bind_some (readInt32_append _ _ _)]
      rfl
    rw [restoreKeys, if_neg hne, hcount]
    dsimp only
    rw [rounds_ofNat (by omega), readKeys_append sha1 hkeySizes]
  · rw [if_neg hall, if_neg hall]

/-! ### The map of the endpoints -/

/-- Two endpoints of one dc in the list: they differ in the address or in the port. -/
def Apart (e e' : Endpoint) : Prop := ¬(e.ip = e'.ip ∧ e.port = e'.port)

/-- A map that was filled endpoint by endpoint. -/
structure Gathered (data : EndpointMap) : Prop where
  ne_nil : ∀ (dc : DcId) (l : List Endpoint), data[dc]? = some l → l ≠ []
  ids : ∀ (dc : DcId) (l : List Endpoint), data[dc]? = some l → ∀ e ∈ l, e.id = dc
  apart : ∀ (dc : DcId) (l : List Endpoint), data[dc]? = some l → l.Pairwise Apart

theorem gathered_empty : Gathered ∅ where
  ne_nil := by simp
  ids := by simp
  apart := by simp

/-- Either an endpoint with this address and port is there, or the endpoint is appended. -/
theorem applyEndpoint_cases (data : EndpointMap) (e : Endpoint) :
    (applyEndpoint data e = data ∧ ∃ e' ∈ data.getD e.id [], ¬Apart e' e) ∨
      (applyEndpoint data e = data.insert e.id (data.getD e.id [] ++ [e]) ∧
        ∀ e' ∈ data.getD e.id [], Apart e' e) := by
  rw [applyEndpoint, applyOneOption, Std.ExtTreeMap.getD_eq_getD_getElem?]
  cases hget : data[e.id]? with
  | none => exact .inr ⟨rfl, by simp⟩
  | some endpoints =>
    dsimp only
    rw [Option.getD_some]
    by_cases hany : endpoints.any (fun endpoint => endpoint.ip == e.ip && endpoint.port == e.port) = true
    · rw [if_pos hany]
      refine .inl ⟨rfl, ?_⟩
      simpa [Apart] using hany
    · rw [if_neg hany]
      refine .inr ⟨rfl, ?_⟩
      simpa [Apart] using hany

theorem Gathered.insert {data : EndpointMap} {e : Endpoint} (h : Gathered data)
    (hapart : ∀ e' ∈ data.getD e.id [], Apart e' e) :
    Gathered (data.insert e.id (data.getD e.id [] ++ [e])) := by
  have hold : ∀ endpoints, data[e.id]? = some endpoints → data.getD e.id [] = endpoints := by
    intro endpoints hget
    rw [Std.ExtTreeMap.getD_eq_getD_getElem?, hget, Option.getD_some]
  refine ⟨?_, ?_, ?_⟩ <;> intro dc endpoints hget <;>
    simp only [Std.ExtTreeMap.getElem?_insert, Std.LawfulEqCmp.compare_eq_iff_eq] at hget <;>
    split at hget
  · cases hget
    simp
  · exact h.ne_nil dc endpoints hget
  · next hdc =>
    cases hget
    intro e' he'
    rw [List.mem_append, List.mem_singleton] at he'
    rcases he' with he' | rfl
    · cases hcase : data[e.id]? with
      | none => simp [Std.ExtTreeMap.getD_eq_getD_getElem?, hcase] at he'
      | some l =>
        rw [hold l hcase] at he'
        rw [← hdc]
        exact h.ids e.id l hcase e' he'
    · exact hdc
  · exact h.ids dc endpoints hget
  · cases hget
    rw [List.pairwise_append]
    refine ⟨?_, by simp, ?_⟩
    · cases hcase : data[e.id]? with
      | none => simp [Std.ExtTreeMap.getD_eq_getD_getElem?, hcase]
      | some l =>
        rw [hold l hcase]
        exact h.apart e.id l hcase
    · intro a ha b hb
      rw [List.mem_singleton] at hb
      rw [hb]
      exact hapart a ha
  · exact h.apart dc endpoints hget

theorem Gathered.applyEndpoint {data : EndpointMap} (h : Gathered data) (e : Endpoint) :
    Gathered (applyEndpoint data e) := by
  rcases applyEndpoint_cases data e with ⟨heq, -⟩ | ⟨heq, hapart⟩
  · rwa [heq]
  · rw [heq]
    exact h.insert hapart

theorem Gathered.foldl {data : EndpointMap} (h : Gathered data) (l : List Endpoint) :
    Gathered (l.foldl DcOptions.applyEndpoint data) := by
  induction l generalizing data with
  | nil => exact h
  | cons e l ih => exact ih (h.applyEndpoint e)

/-- Filled from a list without repetitions, the map holds the endpoints of every dc in the
order of the list. -/
theorem getD_foldl_applyEndpoint {l : List Endpoint}
    (hl : l.Pairwise fun e e' => e.id = e'.id → Apart e e') (dc : DcId) :
    (l.foldl applyEndpoint ∅).getD dc [] = l.filter (fun e => e.id = dc) := by
  induction l using List.reverseRecOn generalizing dc with
  | nil => simp
  | append_singleton l e ih =>
    rw [List.pairwise_append] at hl
    have hprev := ih hl.1 dc
    rw [List.foldl_append, List.filter_append, ← hprev]
    rcases applyEndpoint_cases (l.foldl applyEndpoint ∅) e with ⟨-, e', he', hnot⟩ | ⟨heq, -⟩
    · rw [ih hl.1 e.id, List.mem_filter, decide_eq_true_eq] at he'
      exact absurd (hl.2.2 e' he'.1 e List.mem_cons_self he'.2) hnot
    · rw [List.foldl_cons, List.foldl_nil, heq, Std.ExtTreeMap.getD_insert]
      simp only [Std.LawfulEqCmp.compare_eq_iff_eq]
      by_cases hdc : e.id = dc
      · simp [hdc]
      · simp [hdc]

theorem Gathered.getElem? {data : EndpointMap} (h : Gathered data) (dc : DcId) :
    data[dc]? = if data.getD dc [] = [] then none else some (data.getD dc []) := by
  rw [Std.ExtTreeMap.getD_eq_getD_getElem?]
  cases hget : data[dc]? with
  | none => simp
  | some l => simp [h.ne_nil dc l hget]

theorem filter_savedEndpoints {data : EndpointMap} (h : Gathered data) (dc : DcId) :
    (savedEndpoints data).filter (fun e => e.id = dc) =
      if isTemporaryDcId dc then [] else data.getD dc [] := by
  have hitem : ∀ item ∈ data.toList,
      (if isTemporaryDcId item.1 then [] else item.2).filter (fun e => decide (e.id = dc)) =
        if item.1 = dc then (if isTemporaryDcId item.1 then [] else item.2) else [] := by
    rintro ⟨a, l⟩ hmem
    have hids := h.ids a l (Std.ExtTreeMap.mem_toList_iff_getElem?_eq_some.mp hmem)
    dsimp only
    split
    · simp
    · by_cases hdc : a = dc
      · rw [if_pos hdc, List.filter_eq_self]
        intro e he
        rw [hids e he, hdc, decide_eq_true rfl]
      · rw [if_neg hdc, List.filter_eq_nil_iff]
        intro e he
        rw [hids e he, decide_eq_true_eq]
        exact hdc
  rw [savedEndpoints, List.filter_flatMap, List.flatMap_congr hitem,
    Std.ExtTreeMap.flatMap_toList_key data dc (fun a l => if isTemporaryDcId a then [] else l),
    Std.ExtTreeMap.getD_eq_getD_getElem?]
  cases data[dc]? <;> simp

theorem pairwise_of_filter {l : List Endpoint}
    (h : ∀ dc : DcId, (l.filter (fun e => e.id = dc)).Pairwise Apart) :
    l.Pairwise fun e e' => e.id = e'.id → Apart e e' := by
  induction l with
  | nil => exact .nil
  | cons e l ih =>
    rw [List.pairwise_cons]
    constructor
    · intro e' he' hid
      have hdc := h e.id
      rw [List.filter_cons_of_pos (by simp), List.pairwise_cons] at hdc
      exact hdc.1 e' (List.mem_filter.mpr ⟨he', by simp [hid]⟩)
    · refine ih ?_
      intro dc
      exact (h dc).sublist (List.Sublist.filter _ (List.sublist_cons_self e l))

theorem pairwise_savedEndpoints {data : EndpointMap} (h : Gathered data) :
    (savedEndpoints data).Pairwise fun e e' => e.id = e'.id → Apart e e' := by
  refine pairwise_of_filter ?_
  intro dc
  rw [filter_savedEndpoints h]
  split
  · exact .nil
  · rw [Std.ExtTreeMap.getD_eq_getD_getElem?]
    cases hget : data[dc]? with
    | none => exact .nil
    | some l => exact h.apart dc l hget

theorem getElem?_restored {data : EndpointMap} (h : Gathered data) (dc : DcId) :
    ((savedEndpoints data).foldl applyEndpoint ∅)[dc]? =
      if isTemporaryDcId dc then none else data[dc]? := by
  rw [(gathered_empty.foldl _).getElem?, getD_foldl_applyEndpoint (pairwise_savedEndpoints h),
    filter_savedEndpoints h, h.getElem? dc]
  split <;> simp

/-! ### The map of the keys -/

def keyAt (keys : CdnKeyMap) (dc : DcId) (fingerprint : Nat) : Option RSAPublicKey :=
  (keys.getD dc ∅)[fingerprint]?

/-- A map of keys that was filled key by key. -/
structure KeyedByFingerprint (keys : CdnKeyMap) : Prop where
  ne_empty : ∀ (dc : DcId) (m : Std.ExtTreeMap Nat RSAPublicKey), keys[dc]? = some m → m ≠ ∅
  fingerprint : ∀ (dc : DcId) (n : Nat) (key : RSAPublicKey), keyAt keys dc n = some key →
    key.getFingerPrint sha1 = n

theorem keyAt_emplaceKey (keys : CdnKeyMap) (dcId dc : DcId) (n m : Nat) (key : RSAPublicKey) :
    keyAt (emplaceKey keys dcId n key) dc m =
      if dcId = dc ∧ n = m then some ((keyAt keys dc m).getD key) else keyAt keys dc m := by
  rw [keyAt, emplaceKey, Std.ExtTreeMap.getD_insert]
  simp only [Std.LawfulEqCmp.compare_eq_iff_eq]
  by_cases hdc : dcId = dc
  · rw [if_pos hdc, hdc, Std.ExtTreeMap.getElem?_insertIfNew]
    simp only [Std.LawfulEqCmp.compare_eq_iff_eq, true_and]
    by_cases hn : n = m
    · subst hn
      rw [keyAt]
      cases hget : (keys.getD dc ∅)[n]? with
      | none =>
        have hmem : n ∉ keys.getD dc ∅ := by
          rw [Std.ExtTreeMap.mem_iff_isSome_getElem?, hget]
          simp
        simp [hmem]
      | some old =>
        have hmem : n ∈ keys.getD dc ∅ := by
          rw [Std.ExtTreeMap.mem_iff_isSome_getElem?, hget]
          rfl
        simp [hmem]
    · simp [hn, keyAt]
  · rw [if_neg hdc, if_neg (fun h => hdc h.1), keyAt]

variable {sha1}

theorem keyed_empty : KeyedByFingerprint sha1 ∅ where
  ne_empty := by simp
  fingerprint := by simp [keyAt]

theorem KeyedByFingerprint.emplaceEntry {keys : CdnKeyMap} (h : KeyedByFingerprint sha1 keys)
    (entry : DcId × RSAPublicKey) : KeyedByFingerprint sha1 (emplaceEntry sha1 keys entry) where
  ne_empty := by
    intro dc m hget
    rw [DcOptions.emplaceEntry, emplaceKey] at hget
    simp only [Std.ExtTreeMap.getElem?_insert, Std.LawfulEqCmp.compare_eq_iff_eq] at hget
    split at hget
    · cases hget
      simp
    · exact h.ne_empty dc m hget
  fingerprint := by
    intro dc n key hget
    rw [DcOptions.emplaceEntry, keyAt_emplaceKey] at hget
    split at hget
    · next heq =>
      cases hold : keyAt keys dc n with
      | none =>
        rw [hold, Option.getD_none] at hget
        cases hget
        exact heq.2
      | some old =>
        rw [hold, Option.getD_some] at hget
        cases hget
        exact h.fingerprint dc n key hold
    · exact h.fingerprint dc n key hget

theorem KeyedByFingerprint.foldl {keys : CdnKeyMap} (h : KeyedByFingerprint sha1 keys)
    (l : List (DcId × RSAPublicKey)) :
    KeyedByFingerprint sha1 (l.foldl (DcOptions.emplaceEntry sha1) keys) := by
  induction l generalizing keys with
  | nil => exact h
  | cons entry l ih => exact ih (h.emplaceEntry entry)

theorem exists_of_ne_empty {m : Std.ExtTreeMap Nat RSAPublicKey} (h : m ≠ ∅) :
    ∃ (n : Nat) (key : RSAPublicKey), m[n]? = some key := by
  by_contra hnone
  simp only [not_exists] at hnone
  refine h (Std.ExtTreeMap.ext_getElem? fun n => ?_)
  rw [Std.ExtTreeMap.getElem?_empty]
  exact Option.eq_none_iff_forall_ne_some.mpr (hnone n)

theorem keyAt_of_getElem? {keys : CdnKeyMap} {dc : DcId} {m : Std.ExtTreeMap Nat RSAPublicKey}
    (h : keys[dc]? = some m) (n : Nat) : keyAt keys dc n = m[n]? := by
  rw [keyAt, Std.ExtTreeMap.getD_eq_getD_getElem?, h, Option.getD_some]

theorem keyAt_of_none {keys : CdnKeyMap} {dc : DcId} (h : keys[dc]? = none) (n : Nat) :
    keyAt keys dc n = none := by
  rw [keyAt, Std.ExtTreeMap.getD_eq_getD_getElem?, h, Option.getD_none, Std.ExtTreeMap.getElem?_empty]

/-- Without empty maps inside, the keys that are found determine the map. -/
theorem KeyedByFingerprint.ext {keys keys' : CdnKeyMap} (h : KeyedByFingerprint sha1 keys)
    (h' : KeyedByFingerprint sha1 keys') (heq : ∀ dc n, keyAt keys dc n = keyAt keys' dc n) :
    keys = keys' := by
  refine Std.ExtTreeMap.ext_getElem? fun dc => ?_
  cases hget : keys[dc]? with
  | none =>
    cases hget' : keys'[dc]? with
    | none => rfl
    | some m' =>
      obtain ⟨n, key, hkey⟩ := exists_of_ne_empty (h'.ne_empty dc m' hget')
      have hfound := heq dc n
      rw [keyAt_of_none hget, keyAt_of_getElem? hget', hkey] at hfound
      cases hfound
  | some m =>
    cases hget' : keys'[dc]? with
    | none =>
      obtain ⟨n, key, hkey⟩ := exists_of_ne_empty (h.ne_empty dc m hget)
      have hfound := heq dc n
      rw [keyAt_of_none hget', keyAt_of_getElem? hget, hkey] at hfound
      cases hfound
    | some m' =>
      congr 1
      refine Std.ExtTreeMap.ext_getElem? fun n => ?_
      rw [← keyAt_of_getElem? hget, ← keyAt_of_getElem? hget']
      exact heq dc n

theorem mem_savedKeys {keys : CdnKeyMap} {dc : DcId} {key : RSAPublicKey} :
    (dc, key) ∈ savedKeys keys ↔ ∃ n, keyAt keys dc n = some key := by
  rw [savedKeys, List.mem_flatMap]
  constructor
  · rintro ⟨⟨a, m⟩, hitem, hmem⟩
    obtain ⟨⟨n, k⟩, hentry, heq⟩ := List.mem_map.mp hmem
    cases heq
    refine ⟨n, ?_⟩
    rw [keyAt_of_getElem? (Std.ExtTreeMap.mem_toList_iff_getElem?_eq_some.mp hitem)]
    exact Std.ExtTreeMap.mem_toList_iff_getElem?_eq_some.mp hentry
  · rintro ⟨n, hkey⟩
    cases hget : keys[dc]? with
    | none =>
      rw [keyAt_of_none hget] at hkey
      cases hkey
    | some m =>
      rw [keyAt_of_getElem? hget] at hkey
      exact ⟨(dc, m), Std.ExtTreeMap.mem_toList_iff_getElem?_eq_some.mpr hget,
        List.mem_map.mpr ⟨(n, key), Std.ExtTreeMap.mem_toList_iff_getElem?_eq_some.mpr hkey, rfl⟩⟩

theorem keyAt_foldl {l : List (DcId × RSAPublicKey)}
    (hl : ∀ entry ∈ l, ∀ entry' ∈ l, entry.1 = entry'.1 →
      entry.2.getFingerPrint sha1 = entry'.2.getFingerPrint sha1 → entry = entry')
    (dc : DcId) (n : Nat) (key : RSAPublicKey) :
    keyAt (l.foldl (emplaceEntry sha1) ∅) dc n = some key ↔
      (dc, key) ∈ l ∧ key.getFingerPrint sha1 = n := by
  induction l using List.reverseRecOn generalizing key with
  | nil => simp [keyAt]
  | append_singleton l entry ih =>
    have hprev := ih (fun a ha b hb => hl a (List.mem_append_left _ ha) b (List.mem_append_left _ hb))
    have hentry : entry ∈ l ++ [entry] := by simp
    rw [List.foldl_append, List.foldl_cons, List.foldl_nil, emplaceEntry, keyAt_emplaceKey]
    by_cases hat : entry.1 = dc ∧ entry.2.getFingerPrint sha1 = n
    · rw [if_pos hat]
      constructor
      · intro h
        cases hold : keyAt (l.foldl (emplaceEntry sha1) ∅) dc n with
        | none =>
          rw [hold, Option.getD_none] at h
          cases h
          rw [← hat.1]
          exact ⟨hentry, hat.2⟩
        | some old =>
          rw [hold, Option.getD_some] at h
          cases h
          have hmem := (hprev key).mp hold
          exact ⟨List.mem_append_left _ hmem.1, hmem.2⟩
      · rintro ⟨hmem, hn⟩
        have hsame := hl _ hmem _ hentry hat.1.symm (hn.trans hat.2.symm)
        rw [← hsame]
        cases hold : keyAt (l.foldl (emplaceEntry sha1) ∅) dc n with
        | none => rfl
        | some old =>
          have holdMem := (hprev old).mp hold
          have holdSame := hl _ (List.mem_append_left _ holdMem.1) _ hmem rfl
            (holdMem.2.trans hn.symm)
          rw [Option.getD_some, (Prod.mk.inj holdSame).2]
    · rw [if_neg hat, hprev key, List.mem_append, List.mem_singleton]
      constructor
      · rintro ⟨hmem, hn⟩
        exact ⟨.inl hmem, hn⟩
      · rintro ⟨hmem | rfl, hn⟩
        · exact ⟨hmem, hn⟩
        · exact absurd ⟨rfl, hn⟩ hat

theorem restored_keys {keys : CdnKeyMap} (h : KeyedByFingerprint sha1 keys) :
    (savedKeys keys).foldl (emplaceEntry sha1) ∅ = keys := by
  have hunique : ∀ entry ∈ savedKeys keys, ∀ entry' ∈ savedKeys keys, entry.1 = entry'.1 →
      entry.2.getFingerPrint sha1 = entry'.2.getFingerPrint sha1 → entry = entry' := by
    rintro ⟨dc, key⟩ hmem ⟨dc', key'⟩ hmem' rfl hfp
    obtain ⟨n, hkey⟩ := mem_savedKeys.mp hmem
    obtain ⟨n', hkey'⟩ := mem_savedKeys.mp hmem'
    have hn : n = n' := by
      rw [← h.fingerprint dc n key hkey, ← h.fingerprint dc n' key' hkey']
      exact hfp
    rw [hn, hkey'] at hkey
    cases hkey
    rfl
  refine (keyed_empty.foldl _).ext h ?_
  intro dc n
  refine Option.ext fun key => ?_
  rw [keyAt_foldl hunique, mem_savedKeys]
  constructor
  · rintro ⟨⟨m, hkey⟩, hn⟩
    rwa [← hn, h.fingerprint dc m key hkey]
  · intro hkey
    exact ⟨⟨n, hkey⟩, h.fingerprint dc n key hkey⟩

/-! ### Every reachable state -/

variable (sha1) in
structure WellFormed (o : DcOptions) : Prop where
  data : Gathered o.data
  cdnPublicKeys : KeyedByFingerprint sha1 o.cdnPublicKeys
  immutable : o.immutable = false

theorem Gathered.applyOneOption {data : EndpointMap} (h : Gathered data) (dcId : DcId) (flags : Int32)
    (ip : List UInt8) (port : Int32) (secret : List UInt8) :
    Gathered (applyOneOption data dcId flags ip port secret).1 :=
  h.applyEndpoint ⟨dcId, flags, ip, port, secret⟩

theorem foldl_keeps {γ δ : Type} {P : γ → Prop} {step : γ → δ → γ} {l : List δ}
    (hstep : ∀ x, P x → ∀ a ∈ l, P (step x a)) {x : γ} (h : P x) : P (l.foldl step x) := by
  induction l generalizing x with
  | nil => exact h
  | cons a l ih =>
    exact ih (fun x hx b hb => hstep x hx b (List.mem_cons_of_mem a hb))
      (hstep x h a List.mem_cons_self)

theorem WellFormed.constructFromBuiltIn {o : DcOptions} (h : WellFormed sha1 o)
    (ipTxt : Option (List UInt8 × Int32)) (testMode : Bool) :
    WellFormed sha1 (o.constructFromBuiltIn ipTxt testMode) := by
  cases ipTxt with
  | some line => exact ⟨gathered_empty.applyOneOption _ _ _ _ _, h.cdnPublicKeys, h.immutable⟩
  | none =>
    refine ⟨?_, h.cdnPublicKeys, h.immutable⟩
    exact foldl_keeps (fun data hdata bdc _ => hdata.applyOneOption _ _ _ _ _) gathered_empty

theorem Gathered.applyOptions {data : EndpointMap} (h : Gathered data)
    (options : List (Option MtpDcOption)) : Gathered (applyOptions data options) := by
  refine foldl_keeps ?_ h
  rintro data hdata (_ | option) -
  · exact hdata
  · exact hdata.applyOneOption _ _ _ _ _

theorem WellFormed.processFromList {o : DcOptions} (h : WellFormed sha1 o) (internalUse : Bool)
    (options : List (Option MtpDcOption)) (overwrite : Bool) :
    WellFormed sha1 (o.processFromList internalUse options overwrite) := by
  have hstart : Gathered (if overwrite then ∅ else o.data) := by
    split
    · exact gathered_empty
    · exact h.data
  rw [DcOptions.processFromList]
  by_cases hleave : options = [] ∨ o.immutable ∨ internalUse
  · rw [if_pos hleave]
    exact h
  rw [if_neg hleave]
  dsimp only
  by_cases hsame : countOptionsDifference o.data.toList
      (DcOptions.applyOptions (if overwrite then ∅ else o.data) options).toList = []
  · rw [if_pos hsame]
    exact h
  · rw [if_neg hsame]
    exact ⟨hstart.applyOptions options, h.cdnPublicKeys, h.immutable⟩

theorem WellFormed.addFromOther {o options : DcOptions} (h : WellFormed sha1 o)
    (h' : WellFormed sha1 options) : WellFormed sha1 (o.addFromOther options) := by
  rw [DcOptions.addFromOther]
  split
  · exact h
  refine ⟨?_, ?_, h.immutable⟩
  · refine foldl_keeps ?_ h.data
    intro data hdata item _
    exact hdata.foldl item.2
  · refine foldl_keeps ?_ h.cdnPublicKeys
    rintro keys hkeys ⟨dc, m⟩ hitem
    refine foldl_keeps ?_ hkeys
    rintro keys hkeys ⟨n, key⟩ hentry
    have hm := Std.ExtTreeMap.mem_toList_iff_getElem?_eq_some.mp hitem
    have hkey := Std.ExtTreeMap.mem_toList_iff_getElem?_eq_some.mp hentry
    have hn := h'.cdnPublicKeys.fingerprint dc n key ((keyAt_of_getElem? hm n).trans hkey)
    rw [← hn]
    exact hkeys.emplaceEntry (dc, key)

theorem WellFormed.setCDNConfig {o : DcOptions} (h : WellFormed sha1 o)
    (readPem : List UInt8 → Option RSAPublicKey) (public_keys : List MtpCdnPublicKey) :
    WellFormed sha1 (o.setCDNConfig sha1 readPem public_keys) := by
  refine ⟨h.data, foldl_keeps ?_ keyed_empty, h.immutable⟩
  intro keys hkeys publicKey _
  split
  · exact hkeys.emplaceEntry (publicKey.dc_id, _)
  · exact hkeys

theorem wellFormed_of_reachable {readPem : List UInt8 → Option RSAPublicKey} {o : DcOptions}
    (h : Reachable sha1 readPem o) : WellFormed sha1 o := by
  induction h with
  | fresh => exact ⟨gathered_empty, keyed_empty, rfl⟩
  | builtIn h ipTxt testMode ih => exact ih.constructFromBuiltIn ipTxt testMode
  | setFromList h internalUse options ih => exact ih.processFromList internalUse options true
  | addFromList h internalUse options ih => exact ih.processFromList internalUse options false
  | addFromOther h h' ih ih' => exact ih.addFromOther ih'
  | setCDNConfig h public_keys ih => exact ih.setCDNConfig readPem public_keys

/-! ### The round trip -/

variable (sha1) in
/-- Saved and restored into a fresh object: every dc that is not temporary has its endpoints,
and all keys for the CDN are there. -/
def Restored (o : DcOptions) : Prop :=
  (∀ dc : DcId, (constructFromSerialized sha1 {} o.serialize).data[dc]? =
    if isTemporaryDcId dc then none else o.data[dc]?) ∧
  (constructFromSerialized sha1 {} o.serialize).cdnPublicKeys = o.cdnPublicKeys

theorem readableFront_eq_self {l : List Endpoint} (h : ∀ e ∈ l, Readable e) :
    readableFront l = l :=
  List.takeWhile_eq_self_iff.mpr (by simpa using h)

theorem mem_savedEndpoints {data : EndpointMap} {e : Endpoint} :
    e ∈ savedEndpoints data ↔
      ∃ (dc : DcId) (l : List Endpoint), data[dc]? = some l ∧ isTemporaryDcId dc = false ∧ e ∈ l := by
  rw [savedEndpoints, List.mem_flatMap, Prod.exists]
  simp only [Std.ExtTreeMap.mem_toList_iff_getElem?_eq_some]
  refine exists_congr fun dc => exists_congr fun l => and_congr_right fun _ => ?_
  cases isTemporaryDcId dc <;> simp

/-- Endpoints come back exactly if none of them is one that the reader refuses. -/
theorem restored_iff {readPem : List UInt8 → Option RSAPublicKey} {o : DcOptions}
    (h : Reachable sha1 readPem o) (hfits : o.serialize.length < 2 ^ 31) :
    Restored sha1 o ↔ ∀ (dc : DcId) (l : List Endpoint), o.data[dc]? = some l →
      isTemporaryDcId dc = false → ∀ e ∈ l,
        0 < e.ip.length ∧ e.ip.length ≤ 45 ∧ e.secret.length ≤ 32 := by
  have hwf := wellFormed_of_reachable h
  obtain ⟨hdata, hkeys⟩ := constructFromSerialized_serialize sha1 hwf.immutable hfits
  constructor
  · intro hrestored dc l hget htemp e he
    have hback := hrestored.1 dc
    have hfront : (readableFront (savedEndpoints o.data)).Pairwise
        fun e e' => e.id = e'.id → Apart e e' :=
      (pairwise_savedEndpoints hwf.data).sublist (List.takeWhile_sublist _)
    rw [hdata, htemp, if_neg (by simp), hget] at hback
    have hlist := getD_foldl_applyEndpoint hfront dc
    rw [Std.ExtTreeMap.getD_eq_getD_getElem?, hback, Option.getD_some] at hlist
    rw [hlist] at he
    have hread := List.mem_takeWhile_imp (List.mem_filter.mp he).1
    exact of_decide_eq_true hread
  · intro hgood
    have hall : ∀ e ∈ savedEndpoints o.data, Readable e := by
      intro e he
      obtain ⟨dc, l, hget, htemp, hmem⟩ := mem_savedEndpoints.mp he
      exact hgood dc l hget htemp e hmem
    refine ⟨?_, ?_⟩
    · intro dc
      rw [hdata, readableFront_eq_self hall]
      exact getElem?_restored hwf.data dc
    · rw [hkeys, if_pos hall, restored_keys hwf.cdnPublicKeys]

theorem restored_iff_builtIn :
    Restored (fun _ => []) (constructFromBuiltIn {} none false) ↔
      ∀ (dc : DcId) (l : List Endpoint), (constructFromBuiltIn {} none false).data[dc]? = some l →
        isTemporaryDcId dc = false → ∀ e ∈ l,
          0 < e.ip.length ∧ e.ip.length ≤ 45 ∧ e.secret.length ≤ 32 :=
  restored_iff (.builtIn (@Reachable.fresh _ fun _ => none) none false) (by decide +kernel)

/-- Two dcs, the first with a host name of 46 bytes. -/
def longHost : DcOptions :=
  setFromList {} false [some ⟨0, 2, .replicate 46 0x61, 443, []⟩,
    some ⟨0, 3, stringBytes "149.154.175.117", 443, []⟩]

/-- The reader stops at the long name and drops the dc behind it. -/
theorem longHost_not_restored :
    Reachable (fun _ => []) (fun _ => none) longHost ∧
      longHost.data[(3 : DcId)]? = some [⟨3, 0, stringBytes "149.154.175.117", 443, []⟩] ∧
      (constructFromSerialized (fun _ => []) {} longHost.serialize).data[(3 : DcId)]? = none ∧
      ¬Restored (fun _ => []) longHost := by
  have hsaved : longHost.data[(3 : DcId)]? =
      some [⟨3, 0, stringBytes "149.154.175.117", 443, []⟩] := by
    decide +kernel
  have hlost : (constructFromSerialized (fun _ => []) {} longHost.serialize).data[(3 : DcId)]? =
      none := by
    decide +kernel
  refine ⟨.setFromList .fresh false _, hsaved, hlost, ?_⟩
  intro hrestored
  have hback := hrestored.1 3
  rw [hlost, hsaved] at hback
  revert hback
  decide

end TelegramClient.DcOptions
