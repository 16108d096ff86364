import TelegramClient.Lib.TreeMap
import TelegramClient.Mtproto.DcOptions

/-! The addresses that the server sends take the place of the old ones
(`DcOptions::setFromList`), and are found for a connection (`DcOptions::lookup`). -/

namespace TelegramClient

open Std (ExtTreeMap)

inductive DcType where
  | regular
  | temporary
  | mediaDownload
  | cdn
  deriving DecidableEq

namespace DcOptions

def f_ipv6 : Int32 := 0x1

def f_media_only : Int32 := 0x2

def f_tcpo_only : Int32 := 0x4

def f_cdn : Int32 := 0x8

inductive Address where
  | ipv4
  | ipv6
  deriving DecidableEq

inductive Protocol where
  | tcp
  | http
  deriving DecidableEq

abbrev Variants := Address → Protocol → List Endpoint

def Variants.push (variants : Variants) (address : Address) (protocol : Protocol)
    (endpoint : Endpoint) : Variants := fun a p =>
  if a = address ∧ p = protocol then variants a p ++ [endpoint] else variants a p

def lookupOne (type : DcType) (result : Variants) (endpoint : Endpoint) : Variants :=
  let flags := endpoint.flags
  if type = .cdn ∧ flags &&& f_cdn = 0 then result
  else if type ≠ .mediaDownload ∧ flags &&& f_media_only ≠ 0 then result
  else
    let address := if flags &&& f_ipv6 ≠ 0 then .ipv6 else .ipv4
    let result := result.push address .tcp endpoint
    if flags &&& (f_tcpo_only ||| f_secret) = 0 then result.push address .http endpoint else result

def filterIfHasWithFlag (variants : Variants) (flag : Int32) : Variants := fun address protocol =>
  let list := variants address protocol
  if list.any fun endpoint => endpoint.flags &&& flag ≠ 0 then
    list.filter fun endpoint => endpoint.flags &&& flag ≠ 0
  else list

def lookup (data : EndpointMap) (dcId : DcId) (type : DcType) (throughProxy : Bool) : Variants :=
  match data[dcId]? with
  | none => fun _ _ => []
  | some endpoints =>
    let result := endpoints.foldl (lookupOne type) fun _ _ => []
    let result :=
      if type = .mediaDownload then filterIfHasWithFlag result f_media_only else result
    if throughProxy then filterIfHasWithFlag result f_static else result

def maxDcId : DcId := Int32.maxValue

/-- `CountOptionsDifference` as the code goes through both maps: the end of one counts as the
largest id, and `none` is an access to that end. -/
def compareOptions : List (DcId × List Endpoint) → List (DcId × List Endpoint) →
    Option (List DcId)
  | [], [] => some []
  | (aId, _) :: a, [] => if aId < maxDcId then (compareOptions a []).map (aId :: ·) else none
  | [], (bId, _) :: b => if bId < maxDcId then (compareOptions [] b).map (bId :: ·) else none
  | (aId, m) :: a, (bId, n) :: b =>
    if aId < bId then (compareOptions a ((bId, n) :: b)).map (aId :: ·)
    else if bId < aId then (compareOptions ((aId, m) :: a) b).map (bId :: ·)
    else if equalEndpoints m n then compareOptions a b
    else (compareOptions a b).map (aId :: ·)
  termination_by a b => a.length + b.length

/-- `setFromList` with the ids that are notified as changed. -/
def setFromListChanged (o : DcOptions) (internalUse : Bool)
    (options : List (Option MtpDcOption)) : Option (DcOptions × List DcId) :=
  if options = [] ∨ o.immutable ∨ internalUse then some (o, [])
  else
    let data := applyOptions ∅ options
    (compareOptions o.data.toList data.toList).map fun difference =>
      if difference = [] then (o, []) else ({ o with data }, difference)

/-- What the list says; an empty one says nothing. -/
def listed (o : DcOptions) (options : List (Option MtpDcOption)) : EndpointMap :=
  if options = [] then o.data else applyOptions ∅ options

section Effect

variable (R : List Endpoint → List Endpoint → Prop)

/-- What is found is what the list says, and the ids that are notified are those with other
endpoints than before, where endpoints are the same up to `R`. -/
def TakesEffect (o : DcOptions) (options : List (Option MtpDcOption)) : Prop :=
  ∃ o' changed, o.setFromListChanged false options = some (o', changed) ∧
    (∀ dcId ∈ o.listed options, ∀ type throughProxy address protocol,
      R (lookup o'.data dcId type throughProxy address protocol)
        (lookup (o.listed options) dcId type throughProxy address protocol)) ∧
    ∀ dcId : DcId, dcId ∈ changed ↔ ¬Option.Rel R o.data[dcId]? (o.listed options)[dcId]?

/-- The comparison does not pass over a difference, and does not get to the end of one map with
the largest id in the other. -/
def SeesDifference (o : DcOptions) (options : List (Option MtpDcOption)) : Prop :=
  (maxDcId ∈ o.data ↔ maxDcId ∈ o.listed options) ∧
    ∀ (dcId : DcId) m n, o.data[dcId]? = some m → (o.listed options)[dcId]? = some n →
      equalEndpoints m n → R m n

end Effect

/-! ### The comparison -/

variable {a b : List (DcId × List Endpoint)} {k dcId : DcId} {m n : List Endpoint}

theorem lt_trans_dcId {i j k : DcId} (h : i < j) (h' : j < k) : i < k := by
  rw [Int32.lt_iff_toInt_lt] at *
  omega

theorem not_lt_self_dcId (k : DcId) : ¬k < k := by
  rw [Int32.lt_iff_toInt_lt]
  omega

theorem eq_of_not_lt_dcId {i j : DcId} (h : ¬i < j) (h' : ¬j < i) : i = j := by
  rw [Int32.lt_iff_toInt_lt] at h h'
  exact Int32.toInt_inj.mp (by omega)

theorem not_maxDcId_lt (k : DcId) : ¬maxDcId < k := by
  rw [Int32.lt_iff_toInt_lt]
  exact Int.not_lt.mpr k.toInt_le

theorem eq_maxDcId (h : ¬k < maxDcId) : k = maxDcId := eq_of_not_lt_dcId h (not_maxDcId_lt k)

def Ascending (a : List (DcId × List Endpoint)) : Prop := (a.map Prod.fst).Pairwise (· < ·)

theorem ascending_toList (data : EndpointMap) : Ascending data.toList :=
  List.pairwise_map.mpr (ExtTreeMap.ordered_keys_toList.imp fun h => Std.compare_eq_lt.mp h)

theorem lookup_cons_of_ne {i : DcId} (h : k ≠ i) : ((i, m) :: a).lookup k = a.lookup k := by
  rw [List.lookup_cons, beq_false_of_ne h]

theorem Ascending.tail {i : DcId} (ha : Ascending ((i, m) :: a)) : Ascending a :=
  (List.pairwise_cons.mp ha).2

theorem Ascending.lt {i : DcId} (ha : Ascending ((i, m) :: a)) (h : (k, n) ∈ a) : i < k :=
  (List.pairwise_cons.mp ha).1 k (List.mem_map_of_mem h)

theorem Ascending.lookup_eq_some (ha : Ascending a) (h : (k, m) ∈ a) : a.lookup k = some m := by
  induction a with
  | nil => cases h
  | cons item a ih =>
    rcases List.mem_cons.mp h with rfl | hmem
    · exact List.lookup_cons_self
    · have hlt := ha.lt (i := item.1) (m := item.2) hmem
      have hne : k ≠ item.1 := by
        rintro rfl
        exact not_lt_self_dcId _ hlt
      exact (lookup_cons_of_ne hne).trans (ih ha.tail hmem)

theorem mem_of_lookup (h : a.lookup k = some m) : (k, m) ∈ a := by
  obtain ⟨l, l', rfl, -⟩ := List.lookup_eq_some_iff.mp h
  exact List.mem_append_right l List.mem_cons_self

/-- Before the first id there is none. -/
theorem Ascending.lookup_eq_none {i : DcId} (ha : Ascending ((i, m) :: a)) (hk : k < i) :
    ((i, m) :: a).lookup k = none := by
  cases hlookup : ((i, m) :: a).lookup k with
  | none => rfl
  | some n =>
    rcases List.mem_cons.mp (mem_of_lookup hlookup) with heq | hmem
    · cases heq
      exact absurd hk (not_lt_self_dcId _)
    · exact absurd (lt_trans_dcId hk (ha.lt hmem)) (not_lt_self_dcId _)

theorem Ascending.lookup_tail {i : DcId} (ha : Ascending ((i, m) :: a)) : a.lookup i = none := by
  cases hlookup : a.lookup i with
  | none => rfl
  | some n => exact absurd (ha.lt (mem_of_lookup hlookup)) (not_lt_self_dcId i)

theorem lookup_toList (data : EndpointMap) (k : DcId) : data.toList.lookup k = data[k]? := by
  cases hget : data[k]? with
  | none =>
    cases hlookup : data.toList.lookup k with
    | none => rfl
    | some m =>
      rw [ExtTreeMap.mem_toList_iff_getElem?_eq_some.mp (mem_of_lookup hlookup)] at hget
      cases hget
  | some m =>
    exact (ascending_toList data).lookup_eq_some (ExtTreeMap.mem_toList_iff_getElem?_eq_some.mpr hget)

/-- What the comparison tells about the endpoints of one id. -/
def Differ : Option (List Endpoint) → Option (List Endpoint) → Prop
  | none, none => False
  | some m, some n => ¬equalEndpoints m n
  | _, _ => True

theorem mem_compareOptions (ha : Ascending a) (hb : Ascending b) {difference : List DcId}
    (h : compareOptions a b = some difference) (k : DcId) :
    k ∈ difference ↔ Differ (a.lookup k) (b.lookup k) := by
  -- one id after another, the smaller one of both maps first
  induction a, b using compareOptions.induct generalizing difference with
  | case1 =>
    rw [compareOptions] at h
    cases h
    simp [Differ]
  | case2 aId m a hlt ih =>
    rw [compareOptions, if_pos hlt] at h
    obtain ⟨rest, hrest, rfl⟩ := Option.map_eq_some_iff.mp h
    rw [List.mem_cons, ih ha.tail hb hrest]
    by_cases hk : k = aId
    · simp [hk, Differ]
    · rw [lookup_cons_of_ne hk, or_iff_right hk]
  | case3 aId m a hlt =>
    rw [compareOptions, if_neg hlt] at h
    cases h
  | case4 bId n b hlt ih =>
    rw [compareOptions, if_pos hlt] at h
    obtain ⟨rest, hrest, rfl⟩ := Option.map_eq_some_iff.mp h
    rw [List.mem_cons, ih ha hb.tail hrest]
    by_cases hk : k = bId
    · simp [hk, Differ]
    · rw [lookup_cons_of_ne hk, or_iff_right hk]
  | case5 bId n b hlt =>
    rw [compareOptions, if_neg hlt] at h
    cases h
  | case6 aId m a bId n b hlt ih =>
    rw [compareOptions, if_pos hlt] at h
    obtain ⟨rest, hrest, rfl⟩ := Option.map_eq_some_iff.mp h
    rw [List.mem_cons, ih ha.tail hb hrest]
    by_cases hk : k = aId
    · rw [hk, hb.lookup_eq_none hlt, List.lookup_cons_self]
      simp [Differ]
    · rw [lookup_cons_of_ne hk, or_iff_right hk]
  | case7 aId m a bId n b hnot hlt ih =>
    rw [compareOptions, if_neg hnot, if_pos hlt] at h
    obtain ⟨rest, hrest, rfl⟩ := Option.map_eq_some_iff.mp h
    rw [List.mem_cons, ih ha hb.tail hrest]
    by_cases hk : k = bId
    · rw [hk, ha.lookup_eq_none hlt, List.lookup_cons_self]
      simp [Differ]
    · rw [lookup_cons_of_ne hk, or_iff_right hk]
  | case8 aId m a bId n b hnot hnot' hequal ih =>
    rw [compareOptions, if_neg hnot, if_neg hnot', if_pos hequal] at h
    have hid := eq_of_not_lt_dcId hnot hnot'
    rw [ih ha.tail hb.tail h]
    by_cases hk : k = aId
    · rw [hk, List.lookup_cons_self, ha.lookup_tail]
      subst hid
      rw [List.lookup_cons_self, hb.lookup_tail]
      simp [Differ, hequal]
    · rw [lookup_cons_of_ne hk, lookup_cons_of_ne (hid ▸ hk)]
  | case9 aId m a bId n b hnot hnot' hequal ih =>
    rw [compareOptions, if_neg hnot, if_neg hnot', if_neg hequal] at h
    obtain ⟨rest, hrest, rfl⟩ := Option.map_eq_some_iff.mp h
    have hid := eq_of_not_lt_dcId hnot hnot'
    rw [List.mem_cons, ih ha.tail hb.tail hrest]
    by_cases hk : k = aId
    · rw [hk, List.lookup_cons_self, ← hid, List.lookup_cons_self]
      simp [Differ, hequal]
    · rw [lookup_cons_of_ne hk, lookup_cons_of_ne (hid ▸ hk), or_iff_right hk]

theorem ne_maxDcId {i : DcId} (h : k < i) : maxDcId ≠ k := by
  rintro rfl
  exact not_maxDcId_lt i h

theorem sameId_iff {i : DcId} (ha : Ascending ((i, m) :: a)) (hb : Ascending ((i, n) :: b)) :
    ((a.lookup maxDcId).isSome ↔ (b.lookup maxDcId).isSome) ↔
      ((((i, m) :: a).lookup maxDcId).isSome ↔ (((i, n) :: b).lookup maxDcId).isSome) := by
  by_cases hmax : maxDcId = i
  · subst hmax
    simp [ha.lookup_tail, hb.lookup_tail]
  · rw [lookup_cons_of_ne hmax, lookup_cons_of_ne hmax]

/-- The comparison gets to the end of a map with the largest id in the other. -/
theorem isSome_compareOptions (ha : Ascending a) (hb : Ascending b) :
    (compareOptions a b).isSome ↔
      ((a.lookup maxDcId).isSome ↔ (b.lookup maxDcId).isSome) := by
  induction a, b using compareOptions.induct with
  | case1 => simp [compareOptions]
  | case2 aId m a hlt ih =>
    rw [compareOptions, if_pos hlt, Option.isSome_map, ih ha.tail hb,
      lookup_cons_of_ne (ne_maxDcId hlt)]
  | case3 aId m a hlt =>
    rw [compareOptions, if_neg hlt, eq_maxDcId hlt, List.lookup_cons_self]
    simp
  | case4 bId n b hlt ih =>
    rw [compareOptions, if_pos hlt, Option.isSome_map, ih ha hb.tail,
      lookup_cons_of_ne (ne_maxDcId hlt)]
  | case5 bId n b hlt =>
    rw [compareOptions, if_neg hlt, eq_maxDcId hlt, List.lookup_cons_self]
    simp
  | case6 aId m a bId n b hlt ih =>
    rw [compareOptions, if_pos hlt, Option.isSome_map, ih ha.tail hb,
      lookup_cons_of_ne (ne_maxDcId hlt)]
  | case7 aId m a bId n b hnot hlt ih =>
    rw [compareOptions, if_neg hnot, if_pos hlt, Option.isSome_map, ih ha hb.tail,
      @lookup_cons_of_ne b _ _ _ (ne_maxDcId hlt)]
  | case8 aId m a bId n b hnot hnot' hequal ih =>
    have hid := eq_of_not_lt_dcId hnot hnot'
    subst hid
    rw [compareOptions, if_neg hnot, if_neg hnot', if_pos hequal, ih ha.tail hb.tail]
    exact sameId_iff ha hb
  | case9 aId m a bId n b hnot hnot' hequal ih =>
    have hid := eq_of_not_lt_dcId hnot hnot'
    subst hid
    rw [compareOptions, if_neg hnot, if_neg hnot', if_neg hequal, Option.isSome_map,
      ih ha.tail hb.tail]
    exact sameId_iff ha hb

theorem countOptionsDifference_of_compare {difference : List DcId}
    (h : compareOptions a b = some difference) : countOptionsDifference a b = difference := by
  induction a, b using compareOptions.induct generalizing difference with
  | case1 =>
    rw [compareOptions] at h
    cases h
    rw [countOptionsDifference]
  | case2 aId m a hlt ih =>
    rw [compareOptions, if_pos hlt] at h
    obtain ⟨rest, hrest, rfl⟩ := Option.map_eq_some_iff.mp h
    rw [countOptionsDifference, ih hrest]
  | case3 aId m a hlt =>
    rw [compareOptions, if_neg hlt] at h
    cases h
  | case4 bId n b hlt ih =>
    rw [compareOptions, if_pos hlt] at h
    obtain ⟨rest, hrest, rfl⟩ := Option.map_eq_some_iff.mp h
    rw [countOptionsDifference, ih hrest]
  | case5 bId n b hlt =>
    rw [compareOptions, if_neg hlt] at h
    cases h
  | case6 aId m a bId n b hlt ih =>
    rw [compareOptions, if_pos hlt] at h
    obtain ⟨rest, hrest, rfl⟩ := Option.map_eq_some_iff.mp h
    rw [countOptionsDifference, if_pos hlt, ih hrest]
  | case7 aId m a bId n b hnot hlt ih =>
    rw [compareOptions, if_neg hnot, if_pos hlt] at h
    obtain ⟨rest, hrest, rfl⟩ := Option.map_eq_some_iff.mp h
    rw [countOptionsDifference, if_neg hnot, if_pos hlt, ih hrest]
  | case8 aId m a bId n b hnot hnot' hequal ih =>
    rw [compareOptions, if_neg hnot, if_neg hnot', if_pos hequal] at h
    rw [countOptionsDifference, if_neg hnot, if_neg hnot', if_pos hequal, ih h]
  | case9 aId m a bId n b hnot hnot' hequal ih =>
    rw [compareOptions, if_neg hnot, if_neg hnot', if_neg hequal] at h
    obtain ⟨rest, hrest, rfl⟩ := Option.map_eq_some_iff.mp h
    rw [countOptionsDifference, if_neg hnot, if_neg hnot', if_neg hequal, ih hrest]

/-- The state is that of `setFromList`. -/
theorem setFromListChanged_fst {o o' : DcOptions} {internalUse : Bool}
    {options : List (Option MtpDcOption)} {changed : List DcId}
    (h : o.setFromListChanged internalUse options = some (o', changed)) :
    o' = o.setFromList internalUse options := by
  rw [setFromListChanged] at h
  rw [setFromList, processFromList]
  split at h
  · rename_i hleave
    rw [if_pos hleave]
    cases h
    rfl
  · rename_i hleave
    rw [if_neg hleave]
    obtain ⟨difference, hdifference, hresult⟩ := Option.map_eq_some_iff.mp h
    simp only [if_true, countOptionsDifference_of_compare hdifference]
    split at hresult
    · rename_i hnone
      rw [if_pos hnone]
      cases hresult
      rfl
    · rename_i hnone
      rw [if_neg hnone]
      cases hresult
      rfl

/-! ### The effect -/

/-- Relations of endpoints that the lookup and the comparison respect. -/
structure Respected (R : List Endpoint → List Endpoint → Prop) : Prop where
  refl : ∀ m, R m m
  filter : ∀ {m n} (p : Endpoint → Bool), R m n → R (m.filter p) (n.filter p)
  any : ∀ {m n} (p : Endpoint → Bool), R m n → m.any p = n.any p
  equal : ∀ {m n}, R m n → equalEndpoints m n

theorem equalEndpoints_of_perm (h : m.Perm n) : equalEndpoints m n := by
  rw [equalEndpoints, Bool.and_eq_true, beq_iff_eq, List.all_eq_true]
  refine ⟨h.length_eq, fun what hwhat => List.any_eq_true.mpr ⟨what, h.mem_iff.mp hwhat, ?_⟩⟩
  simp

theorem respected_eq : Respected Eq where
  refl _ := rfl
  filter _ h := h ▸ rfl
  any _ h := h ▸ rfl
  equal h := equalEndpoints_of_perm (h ▸ .refl _)

theorem respected_perm : Respected List.Perm where
  refl := .refl
  filter p h := h.filter p
  any p h := by
    rw [Bool.eq_iff_iff, List.any_eq_true, List.any_eq_true]
    exact exists_congr fun endpoint => and_congr_left fun _ => h.mem_iff
  equal := equalEndpoints_of_perm

/-- The endpoints that are put into one list of the variants. -/
def taken (type : DcType) (address : Address) (protocol : Protocol) (endpoint : Endpoint) : Bool :=
  let flags := endpoint.flags
  !decide (type = .cdn ∧ flags &&& f_cdn = 0) &&
    !decide (type ≠ .mediaDownload ∧ flags &&& f_media_only ≠ 0) &&
    decide (address = if flags &&& f_ipv6 ≠ 0 then .ipv6 else .ipv4) &&
    decide (protocol = .tcp ∨ flags &&& (f_tcpo_only ||| f_secret) = 0)

theorem lookupOne_eq (type : DcType) (result : Variants) (endpoint : Endpoint) (address : Address)
    (protocol : Protocol) : lookupOne type result endpoint address protocol =
      result address protocol ++ [endpoint].filter (taken type address protocol) := by
  by_cases hcdn : type = .cdn ∧ endpoint.flags &&& f_cdn = 0
  · simp [lookupOne, taken, hcdn]
  by_cases hmedia : type ≠ .mediaDownload ∧ endpoint.flags &&& f_media_only ≠ 0
  · simp [lookupOne, taken, hcdn, hmedia]
  simp only [lookupOne, taken, hcdn, hmedia, if_false, List.filter_cons, List.filter_nil,
    decide_false, Bool.not_false, Bool.true_and]
  generalize (if endpoint.flags &&& f_ipv6 ≠ 0 then Address.ipv6 else Address.ipv4) = other
  by_cases hhttp : endpoint.flags &&& (f_tcpo_only ||| f_secret) = 0 <;>
    by_cases haddress : address = other <;> cases protocol <;>
    simp [Variants.push, hhttp, haddress]

theorem foldl_lookupOne (type : DcType) (result : Variants) (m : List Endpoint) (address : Address)
    (protocol : Protocol) : m.foldl (lookupOne type) result address protocol =
      result address protocol ++ m.filter (taken type address protocol) := by
  induction m generalizing result with
  | nil => simp
  | cons endpoint m ih =>
    rw [List.foldl_cons, ih, lookupOne_eq, List.append_assoc, ← List.filter_append]
    rfl

theorem Respected.filterIfHas {R : List Endpoint → List Endpoint → Prop} (hR : Respected R)
    {v w : Variants} (h : ∀ address protocol, R (v address protocol) (w address protocol))
    (flag : Int32) (address : Address) (protocol : Protocol) :
    R (filterIfHasWithFlag v flag address protocol) (filterIfHasWithFlag w flag address protocol) := by
  simp only [filterIfHasWithFlag, hR.any _ (h address protocol)]
  split
  · exact hR.filter _ (h address protocol)
  · exact h address protocol

theorem Respected.lookup {R : List Endpoint → List Endpoint → Prop} (hR : Respected R)
    {data data' : EndpointMap} (h : Option.Rel R data[dcId]? data'[dcId]?) (type : DcType)
    (throughProxy : Bool) (address : Address) (protocol : Protocol) :
    R (lookup data dcId type throughProxy address protocol)
      (lookup data' dcId type throughProxy address protocol) := by
  unfold DcOptions.lookup
  generalize data[dcId]? = old at *
  generalize data'[dcId]? = new at *
  cases h with
  | none => exact hR.refl _
  | @some m n hmn =>
    have hall : ∀ address protocol, R (m.foldl (lookupOne type) (fun _ _ => []) address protocol)
        (n.foldl (lookupOne type) (fun _ _ => []) address protocol) := by
      intro address protocol
      rw [foldl_lookupOne, foldl_lookupOne]
      exact hR.filter _ hmn
    have hmedia : ∀ address protocol,
        R ((if type = .mediaDownload then filterIfHasWithFlag (m.foldl (lookupOne type) fun _ _ => [])
            f_media_only else m.foldl (lookupOne type) fun _ _ => []) address protocol)
          ((if type = .mediaDownload then filterIfHasWithFlag (n.foldl (lookupOne type) fun _ _ => [])
            f_media_only else n.foldl (lookupOne type) fun _ _ => []) address protocol) := by
      intro address protocol
      split
      · exact hR.filterIfHas hall _ _ _
      · exact hall address protocol
    cases throughProxy
    · exact hmedia address protocol
    · exact hR.filterIfHas hmedia _ _ _

theorem differ_iff {R : List Endpoint → List Endpoint → Prop} (hR : Respected R)
    {old new : Option (List Endpoint)}
    (hsame : ∀ m n, old = some m → new = some n → equalEndpoints m n → R m n) :
    Differ old new ↔ ¬Option.Rel R old new := by
  cases old with
  | none =>
    cases new with
    | none => exact iff_of_false id (fun h => h .none)
    | some n => exact iff_of_true trivial nofun
  | some m =>
    cases new with
    | none => exact iff_of_true trivial nofun
    | some n =>
      have hmn : equalEndpoints m n ↔ R m n := ⟨hsame m n rfl rfl, hR.equal⟩
      rw [Differ, hmn, Option.rel_some_some]

theorem rel_refl {R : List Endpoint → List Endpoint → Prop} (hR : Respected R)
    (old : Option (List Endpoint)) : Option.Rel R old old := by
  cases old with
  | none => exact .none
  | some m => exact .some (hR.refl m)

theorem isSome_lookup_toList (data : EndpointMap) (k : DcId) :
    (data.toList.lookup k).isSome ↔ k ∈ data := by
  rw [lookup_toList, ExtTreeMap.isSome_getElem?_iff_mem]

theorem takesEffect_iff {R : List Endpoint → List Endpoint → Prop} (hR : Respected R)
    (o : DcOptions) (himmutable : o.immutable = false) (options : List (Option MtpDcOption)) :
    TakesEffect R o options ↔ SeesDifference R o options := by
  by_cases hempty : options = []
  · have hlisted : o.listed options = o.data := if_pos hempty
    have hset : o.setFromListChanged false options = some (o, []) := if_pos (.inl hempty)
    refine iff_of_true ⟨o, [], hset, ?_, ?_⟩ ⟨by rw [hlisted], ?_⟩
    · intro dcId _ type throughProxy address protocol
      rw [hlisted]
      exact hR.refl _
    · intro dcId
      rw [hlisted]
      exact iff_of_false (List.not_mem_nil) (fun h => h (rel_refl hR _))
    · intro dcId m n hm hn _
      rw [hlisted, hm] at hn
      cases hn
      exact hR.refl m
  have hlisted : o.listed options = applyOptions ∅ options := if_neg hempty
  have hset : o.setFromListChanged false options =
      (compareOptions o.data.toList (o.listed options).toList).map fun difference =>
        if difference = [] then (o, []) else ({ o with data := o.listed options }, difference) := by
    rw [setFromListChanged, if_neg (by simp [hempty, himmutable]), hlisted]
  have hsome := isSome_compareOptions (ascending_toList o.data) (ascending_toList (o.listed options))
  rw [isSome_lookup_toList, isSome_lookup_toList] at hsome
  have hmem := @mem_compareOptions _ _ (ascending_toList o.data) (ascending_toList (o.listed options))
  simp only [lookup_toList] at hmem
  rw [TakesEffect, SeesDifference, ← hsome, hset]
  generalize compareOptions o.data.toList (o.listed options).toList = compared at *
  constructor
  · rintro ⟨o', changed, hchanged, -, hnotified⟩
    obtain ⟨difference, rfl, hdifference⟩ := Option.map_eq_some_iff.mp hchanged
    refine ⟨rfl, fun dcId m n hm hn hequal => ?_⟩
    have hsame : changed = difference := by
      split at hdifference
      · cases hdifference
        exact (‹difference = []›).symm
      · cases hdifference
        rfl
    have hnot : dcId ∉ difference := by
      rw [hmem rfl, hm, hn]
      exact fun h => h hequal
    rw [← hsame, hnotified, not_not, hm, hn, Option.rel_some_some] at hnot
    exact hnot
  · rintro ⟨hcompared, hsee⟩
    obtain ⟨difference, rfl⟩ := Option.isSome_iff_exists.mp hcompared
    have hdiffer : ∀ dcId : DcId, dcId ∈ difference ↔
        ¬Option.Rel R o.data[dcId]? (o.listed options)[dcId]? := fun dcId =>
      (hmem rfl dcId).trans (differ_iff hR (hsee dcId))
    by_cases hnone : difference = []
    · refine ⟨o, [], by simp [hnone], ?_, hnone ▸ hdiffer⟩
      intro dcId _ type throughProxy address protocol
      have hrel : Option.Rel R o.data[dcId]? (o.listed options)[dcId]? := by
        have hnot : dcId ∉ difference := hnone ▸ List.not_mem_nil
        rw [hdiffer, not_not] at hnot
        exact hnot
      exact hR.lookup hrel _ _ _ _
    · exact ⟨{ o with data := o.listed options }, difference, by simp [hnone],
        fun dcId _ type throughProxy address protocol => hR.refl _, hdiffer⟩

/-- Whether the order of the endpoints counts or not. -/
theorem setFromList_takesEffect_iff (o : DcOptions) (himmutable : o.immutable = false)
    (options : List (Option MtpDcOption)) :
    (TakesEffect Eq o options ↔ SeesDifference Eq o options) ∧
      (TakesEffect List.Perm o options ↔ SeesDifference List.Perm o options) :=
  ⟨takesEffect_iff respected_eq o himmutable options,
    takesEffect_iff respected_perm o himmutable options⟩

theorem setFromList_takesEffect_iff_fresh :
    let options := [some ⟨f_static, 2, stringBytes "1.2.3.4", 443, []⟩]
    (TakesEffect Eq {} options ↔ SeesDifference Eq {} options) ∧
      (TakesEffect List.Perm {} options ↔ SeesDifference List.Perm {} options) :=
  setFromList_takesEffect_iff {} rfl _

/-- A list with a new secret for a known address is not applied, and nothing is notified. -/
theorem new_secret_is_ignored :
    let o : DcOptions := { data := (∅ : EndpointMap).insert 2 [⟨2, f_secret, [49], 443, [1]⟩] }
    let options := [some ⟨f_secret, 2, [49], 443, [2]⟩]
    o.setFromListChanged false options = some (o, []) ∧
      ¬TakesEffect Eq o options ∧ ¬TakesEffect List.Perm o options := by
  intro o options
  have hdata : applyOptions ∅ options =
      (∅ : EndpointMap).insert 2 [⟨2, f_secret, [49], 443, [2]⟩] := by
    simp [options, applyOptions, applyOneOption, MtpDcOption.has_secret, f_secret]
  have hcompare : compareOptions o.data.toList (applyOptions ∅ options).toList = some [] := by
    rw [hdata, ExtTreeMap.toList_insert_empty, ExtTreeMap.toList_insert_empty]
    simp [compareOptions, equalEndpoints]
  have hset : o.setFromListChanged false options = some (o, []) := by
    rw [setFromListChanged, if_neg (by simp [options, o])]
    simp only [hcompare]
    rfl
  have hold : o.data[(2 : DcId)]? = some [⟨2, f_secret, [49], 443, [1]⟩] := by simp [o]
  have hnew : (o.listed options)[(2 : DcId)]? = some [⟨2, f_secret, [49], 443, [2]⟩] := by
    rw [listed, if_neg (by simp [options]), hdata]
    simp
  refine ⟨hset, ?_, ?_⟩
  · rw [takesEffect_iff respected_eq o rfl]
    exact fun h => absurd (h.2 2 _ _ hold hnew (by decide)) (by decide)
  · rw [takesEffect_iff respected_perm o rfl]
    exact fun h => absurd (List.perm_singleton.mp (h.2 2 _ _ hold hnew (by decide))) (by decide)

end DcOptions

end TelegramClient
