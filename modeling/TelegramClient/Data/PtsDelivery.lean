import Mathlib
import TelegramClient.Data.PtsChain

/-! Every history of deliveries of a chain to the waiter. The updates already
applied are an initial segment of the chain; the queue holds exactly the later
ones that have arrived. -/

namespace TelegramClient

variable {U Us : Type} [Inhabited U] [Inhabited Us]

namespace PtsWaiter

def skipped (w : PtsWaiter U Us) : List (Nat × ApiCall U Us) :=
  w.queue.toList.map fun e => (e.1 >>> 32, w.skippedCall e.1 e.2)

omit [Inhabited U] [Inhabited Us] in
theorem queueKey_shiftRight {pts : Int} {skippedKey : Nat} (h0 : 0 ≤ pts) (hp : pts < 2 ^ 31)
    (hs : skippedKey < 2 ^ 32) : queueKey pts skippedKey >>> 32 = pts.toNat := by
  rw [queueKey, Int.emod_eq_of_lt h0 (by omega), ← Nat.shiftLeft_add_eq_or_of_lt hs,
    Nat.shiftRight_eq_div_pow, Nat.shiftLeft_eq, Nat.mul_comm, Nat.mul_add_div (by decide),
    Nat.div_eq_of_lt hs, Nat.add_zero]

theorem skipped_pairwise (w : PtsWaiter U Us) :
    w.skipped.Pairwise fun a b => a.1 ≤ b.1 := by
  refine List.pairwise_map.mpr (Std.ExtTreeMap.ordered_keys_toList.imp ?_)
  intro a b h
  have hlt : a.1 < b.1 := Nat.compare_eq_lt.mp h
  simp only [Nat.shiftRight_eq_div_pow]
  exact Nat.div_le_div_right hlt.le

theorem skipped_eq_nil {w : PtsWaiter U Us} (h : w.queue.isEmpty = true) : w.skipped = [] := by
  simp [skipped, Std.ExtTreeMap.isEmpty_iff.mp h]

section SaveFrame

variable (w : PtsWaiter U Us) (pts : Int) (payload : Payload U Us)

omit [Inhabited U] [Inhabited Us]

@[simp] theorem save_good : (w.save pts payload).good = w.good := by cases payload <;> rfl
@[simp] theorem save_last : (w.save pts payload).last = w.last := by cases payload <;> rfl
@[simp] theorem save_count : (w.save pts payload).count = w.count := by cases payload <;> rfl
@[simp] theorem save_applySkippedLevel :
    (w.save pts payload).applySkippedLevel = w.applySkippedLevel := by cases payload <;> rfl
@[simp] theorem save_requesting : (w.save pts payload).requesting = w.requesting := by
  cases payload <;> rfl
@[simp] theorem save_waitingForSkipped :
    (w.save pts payload).waitingForSkipped = w.waitingForSkipped := by cases payload <;> rfl

end SaveFrame

theorem skipped_save {w : PtsWaiter U Us} {pts : Int} {payload : Payload U Us}
    {call : ApiCall U Us} (hc : payload.call = some call) (h0 : 0 ≤ pts) (hp : pts < 2 ^ 31)
    (hnew : pts.toNat ∉ w.skipped.map Prod.fst) :
    (w.save pts payload).skipped.Perm ((pts.toNat, call) :: w.skipped) := by
  have hkey : queueKey pts w.nextSkippedKey >>> 32 = pts.toNat :=
    queueKey_shiftRight h0 hp (Nat.mod_lt _ (by decide))
  have hother : ∀ e ∈ w.queue.toList, queueKey pts w.nextSkippedKey ≠ e.1 := by
    rintro e he hk
    exact hnew (List.mem_map.mpr ⟨_, List.mem_map.mpr ⟨e, he, rfl⟩, by simp [← hk, hkey]⟩)
  have hnone : w.queue[queueKey pts w.nextSkippedKey]? = none := by
    by_contra hne
    obtain ⟨kind, hkind⟩ := Option.ne_none_iff_exists'.mp hne
    exact hother _ (Std.ExtTreeMap.mem_toList_iff_getElem?_eq_some.mpr hkind) rfl
  cases payload with
  | none => simp [Payload.call] at hc
  | update u =>
    obtain rfl : .applyUpdateNoPtsCheck u = call := by simpa [Payload.call] using hc
    refine ((Std.ExtTreeMap.toList_insert_perm .skippedUpdate hnone).map _).trans ?_
    rw [List.map_cons]
    refine .of_eq (congrArg₂ _ (by simp [hkey, save, ptsKey, skippedCall]) ?_)
    refine List.map_congr_left fun e he => ?_
    cases hk : e.2 <;>
      simp [save, ptsKey, skippedCall, Std.ExtTreeMap.getD_insert, hother e he]
  | updates us =>
    obtain rfl : .applyUpdatesNoPtsCheck us = call := by simpa [Payload.call] using hc
    refine ((Std.ExtTreeMap.toList_insert_perm .skippedUpdates hnone).map _).trans ?_
    rw [List.map_cons]
    refine .of_eq (congrArg₂ _ (by simp [hkey, save, ptsKey, skippedCall]) ?_)
    refine List.map_congr_left fun e he => ?_
    cases hk : e.2 <;>
      simp [save, ptsKey, skippedCall, Std.ExtTreeMap.getD_insert, hother e he]

theorem applySkippedUpdates_spec {w : PtsWaiter U Us} (hl : w.applySkippedLevel = 0)
    (hw : w.queue.isEmpty = false → w.waitingForSkipped = true) :
    ∃ w', w.applySkippedUpdates = (w', w.skipped.map Prod.snd) ∧ w'.queue = ∅ ∧
      w'.good = w.good ∧ w'.last = w.last ∧ w'.count = w.count ∧
      w'.requesting = w.requesting ∧ w'.applySkippedLevel = 0 := by
  cases hq : w.queue.isEmpty with
  | true =>
    have he := Std.ExtTreeMap.isEmpty_iff.mp hq
    rw [skipped_eq_nil hq]
    cases hf : w.waitingForSkipped with
    | false => exact ⟨w, by simp [applySkippedUpdates, hf], he, rfl, rfl, rfl, rfl, hl⟩
    | true =>
      exact ⟨w.setWaitingForSkipped (-1), by simp [applySkippedUpdates, setWaitingForSkipped, hf, he],
        he, rfl, rfl, rfl, rfl, hl⟩
  | false =>
    refine ⟨(w.setWaitingForSkipped (-1)).clearSkippedUpdates, ?_, rfl, rfl, rfl, rfl, rfl, rfl⟩
    simp [applySkippedUpdates, setWaitingForSkipped, hw hq, hq, skipped, skippedCall]

def closed (w : PtsWaiter U Us) (pts count : Int) : PtsWaiter U Us :=
  { w with good := max w.last pts, last := max w.last pts, count := w.count + count }

def gapped (w : PtsWaiter U Us) (pts count : Int) : PtsWaiter U Us :=
  { w with last := max w.last pts, count := w.count + count, waitingForSkipped := true }

omit [Inhabited U] [Inhabited Us] in
theorem updated_of_fresh {w : PtsWaiter U Us} {pts count : Int} (payload : Payload U Us)
    (hr : w.requesting = false) (hl : w.applySkippedLevel = 0) (hg : 0 < w.good)
    (hp : w.good < pts) (hc : 0 < count) :
    w.updated pts count payload =
      if max w.last pts = w.count + count then (true, w.closed pts count)
      else (false, (w.gapped pts count).save pts payload) := by
  have hnot : ¬ (pts ≤ w.good ∧ 0 < count) := by omega
  have hcount : count ≠ 0 := by omega
  simp only [updated, hr, hl, bne_self_eq_false, Bool.or_self, Bool.false_eq_true, ↓reduceIte,
    hnot, check, inited, hg, decide_true, Bool.not_true]
  split
  · simp [closed, hr, hl]
  · split <;> simp [hcount, setWaitingForSkipped, gapped, kWaitForSkippedTimeout, hr, hl]

omit [Inhabited U] [Inhabited Us] in
theorem updated_of_old {w : PtsWaiter U Us} {pts count : Int} (payload : Payload U Us)
    (hr : w.requesting = false) (hl : w.applySkippedLevel = 0) (hp : pts ≤ w.good)
    (hc : 0 < count) : w.updated pts count payload = (false, w) := by
  simp [updated, hr, hl, hp, hc]

end PtsWaiter

open PtsWaiter

def deliver (s : PtsWaiter U Us × List (ApiCall U Us)) (u : PtsUpdate U Us) :
    PtsWaiter U Us × List (ApiCall U Us) :=
  let (_, w, made) := s.1.updateAndApply u.pts u.count u.payload
  (w, s.2 ++ made)

def deliverAll (w : PtsWaiter U Us) (us : List (PtsUpdate U Us)) :
    PtsWaiter U Us × List (ApiCall U Us) :=
  us.foldl deliver (w, [])

theorem deliverAll_append_singleton (w : PtsWaiter U Us) (us : List (PtsUpdate U Us))
    (u : PtsUpdate U Us) : deliverAll w (us ++ [u]) = deliver (deliverAll w us) u := by
  simp [deliverAll]

structure Started (p : Int) (w : PtsWaiter U Us) : Prop where
  inited : 0 < p
  good : w.good = p
  last : w.last = p
  count : w.count = p
  queue : w.queue = ∅
  level : w.applySkippedLevel = 0
  requesting : w.requesting = false

omit [Inhabited U] [Inhabited Us] in
theorem started_init {p : Int} (hp : 0 < p) {w : PtsWaiter U Us} (hr : w.requesting = false) :
    Started p (w.init p) :=
  ⟨hp, rfl, rfl, rfl, rfl, rfl, hr⟩

def arrived (pre : List (PtsUpdate U Us)) (u : PtsUpdate U Us) : Bool :=
  decide (u.pts ∈ pre.map PtsUpdate.pts)

/-- After the deliveries `pre` of a chain `done ++ ahead`: the updates of `done`
have been applied, those of `ahead` that have arrived are queued, and they leave
a gap. -/
structure Pending (p : Int) (pre done ahead : List (PtsUpdate U Us))
    (s : PtsWaiter U Us × List (ApiCall U Us)) : Prop where
  good : s.1.good = endPts p done
  last : s.1.last = maxPts s.1.good (ahead.filter (arrived pre))
  count : s.1.count = s.1.good + totalCount (ahead.filter (arrived pre))
  gap : ahead.filter (arrived pre) = [] ∨ s.1.last ≠ s.1.count
  skipped : s.1.skipped.Perm (taggedCalls (ahead.filter (arrived pre)))
  waiting : s.1.queue.isEmpty = false → s.1.waitingForSkipped = true
  level : s.1.applySkippedLevel = 0
  requesting : s.1.requesting = false
  applied : s.2 = calls done
  delivered : ∀ u ∈ done, u ∈ pre

theorem Started.pending {p : Int} {w : PtsWaiter U Us} (h : Started p w)
    (chain : List (PtsUpdate U Us)) : Pending p [] [] chain (w, []) := by
  have hf : chain.filter (arrived []) = [] := by simp [arrived]
  constructor <;> simp [hf, h.good, h.last, h.count, h.level, h.requesting, endPts, maxPts,
    totalCount, taggedCalls, calls, PtsWaiter.skipped, h.queue]

omit [Inhabited U] [Inhabited Us] in
theorem arrived_append_singleton (pre : List (PtsUpdate U Us)) (u v : PtsUpdate U Us) :
    arrived (pre ++ [u]) v = (arrived pre v || decide (v.pts = u.pts)) := by
  simp [arrived, Bool.decide_or]

omit [Inhabited U] [Inhabited Us] in
theorem filter_arrived_perm {p : Int} {pre ahead : List (PtsUpdate U Us)} {u : PtsUpdate U Us}
    (hc : PtsChain p ahead) (hu : u ∈ ahead) (hn : arrived pre u = false) :
    (ahead.filter (arrived (pre ++ [u]))).Perm (u :: ahead.filter (arrived pre)) := by
  obtain ⟨l, r, rfl⟩ := List.append_of_mem hu
  have hother : ∀ v ∈ l ++ r, arrived (pre ++ [u]) v = arrived pre v := by
    intro v hv
    have hv' : v ∈ l ++ u :: r := by
      rcases List.mem_append.mp hv with hv | hv <;> simp [hv]
    have hne : v.pts ≠ u.pts := by
      intro he
      have hp := hc.pairwise
      rw [List.pairwise_append, List.pairwise_cons] at hp
      rcases List.mem_append.mp hv with hv | hv
      · exact (hp.2.2 v hv u List.mem_cons_self).ne he
      · exact (hp.2.1.1 v hv).ne' he
    simp [arrived_append_singleton, hne]
  rw [List.filter_append, List.filter_cons_of_pos (by simp [arrived_append_singleton]),
    List.filter_append, List.filter_cons_of_neg (by simp [hn]),
    List.filter_congr fun v hv => hother v (List.mem_append_left _ hv),
    List.filter_congr fun v hv => hother v (List.mem_append_right _ hv)]
  exact List.perm_middle

omit [Inhabited U] [Inhabited Us] in
theorem PtsChain.taggedCalls_pairwise {p : Int} {us : List (PtsUpdate U Us)} (hp : 0 ≤ p)
    (h : PtsChain p us) : (taggedCalls us).Pairwise fun a b => a.1 < b.1 := by
  refine List.pairwise_filterMap.mpr (h.pairwise.imp_of_mem ?_)
  intro u v hu hv hlt a ha b hb
  obtain ⟨c, _, rfl⟩ := Option.map_eq_some_iff.mp ha
  obtain ⟨d, _, rfl⟩ := Option.map_eq_some_iff.mp hb
  have := h.lt_of_mem hu
  simp only
  omega

theorem skipped_eq_of_perm {w : PtsWaiter U Us} {p : Int} {us : List (PtsUpdate U Us)}
    (hp : 0 ≤ p) (h : PtsChain p us) (hs : w.skipped.Perm (taggedCalls us)) :
    w.skipped = taggedCalls us := by
  have ht := h.taggedCalls_pairwise hp
  refine hs.eq_of_pairwise ?_ w.skipped_pairwise (ht.imp Nat.le_of_lt)
  intro a b ha hb hab hba
  have hnd : ((taggedCalls us).map Prod.fst).Nodup :=
    List.pairwise_map.mpr (ht.imp fun hlt => hlt.ne)
  exact List.inj_on_of_nodup_map hnd (hs.subset ha) hb (hab.antisymm hba)

omit [Inhabited U] [Inhabited Us] in
theorem taggedCalls_perm {us vs : List (PtsUpdate U Us)} (h : us.Perm vs) :
    (taggedCalls us).Perm (taggedCalls vs) := h.filterMap _

theorem Pending.arrive {p : Int} {pre done ahead : List (PtsUpdate U Us)}
    {s : PtsWaiter U Us × List (ApiCall U Us)} {u : PtsUpdate U Us}
    (hc : PtsChain s.1.good ahead) (h : Pending p pre done ahead s) (hu : u ∈ ahead)
    (hn : arrived pre u = false) :
    max s.1.last u.pts = maxPts s.1.good (ahead.filter (arrived (pre ++ [u]))) ∧
    s.1.count + u.count = s.1.good + totalCount (ahead.filter (arrived (pre ++ [u]))) := by
  have hperm := filter_arrived_perm hc hu hn
  rw [maxPts_perm hperm, totalCount_perm hperm, h.last, h.count]
  refine ⟨max_comm _ _, ?_⟩
  simp only [totalCount, List.map_cons, List.sum_cons]
  omega

theorem updateAndApply_closing {w : PtsWaiter U Us} {q : Int} {u : PtsUpdate U Us}
    {waiting seg : List (PtsUpdate U Us)} (hr : w.requesting = false)
    (hl : w.applySkippedLevel = 0) (hg : 0 < w.good) (hp : w.good < u.pts) (hc : 0 < u.count)
    (hb : u.pts < 2 ^ 31) (hw : w.queue.isEmpty = false → w.waitingForSkipped = true)
    (he : max w.last u.pts = w.count + u.count) (hq : 0 ≤ q) (hchain : PtsChain q seg)
    (hseg : seg.Perm (u :: waiting)) (hs : w.skipped.Perm (taggedCalls waiting))
    (hnew : u.pts.toNat ∉ w.skipped.map Prod.fst) :
    ∃ w', w.updateAndApply u.pts u.count u.payload = (true, w', calls seg) ∧ w'.queue = ∅ ∧
      w'.good = max w.last u.pts ∧ w'.last = max w.last u.pts ∧ w'.count = w.count + u.count ∧
      w'.requesting = false ∧ w'.applySkippedLevel = 0 := by
  have hup := updated_of_fresh u.payload hr hl hg hp hc
  rw [if_pos he] at hup
  have htag := taggedCalls_perm hseg
  cases hcall : u.payload.call with
  | none =>
    have hs' : (w.closed u.pts u.count).skipped.Perm (taggedCalls seg) := by
      refine hs.trans (htag.trans ?_).symm
      simp [taggedCalls, hcall]
    obtain ⟨w', hap, hq', h1, h2, h3, h4, h5⟩ :=
      applySkippedUpdates_spec (w := w.closed u.pts u.count) hl hw
    rw [skipped_eq_of_perm hq hchain hs', taggedCalls_snd] at hap
    exact ⟨w', by simp [updateAndApply, hup, hcall, hap], hq', h1, h2, h3, h4.trans hr, h5⟩
  | some call =>
    by_cases hnow : (!w.waitingForSkipped || w.queue.isEmpty) = true
    · have hempty : w.queue.isEmpty = true := by
        cases hqe : w.queue.isEmpty with
        | true => rfl
        | false => simp [hw hqe, hqe] at hnow
      have hone : calls seg = [call] := by
        have hcalls : (calls seg).Perm (call :: (taggedCalls waiting).map Prod.snd) := by
          rw [← taggedCalls_snd seg]
          refine (htag.map _).trans (.of_eq ?_)
          simp [taggedCalls, hcall]
        rw [skipped_eq_nil hempty] at hs
        rw [List.nil_perm.mp hs] at hcalls
        exact List.perm_singleton.mp hcalls
      refine ⟨w.closed u.pts u.count, ?_, Std.ExtTreeMap.isEmpty_iff.mp hempty, rfl, rfl, rfl, hr, hl⟩
      rw [hone]
      simp [updateAndApply, hup, hcall, closed, hempty]
    · have hwait : (w.closed u.pts u.count).waitingForSkipped = true ∧
          (w.closed u.pts u.count).queue.isEmpty = false := by simpa [closed] using hnow
      have hs' : ((w.closed u.pts u.count).save u.pts u.payload).skipped.Perm (taggedCalls seg) := by
        refine (skipped_save (w := w.closed u.pts u.count) hcall (by omega) hb hnew).trans
          ((hs.cons _).trans (htag.trans (.of_eq ?_)).symm)
        simp [taggedCalls, hcall]
      obtain ⟨w', hap, hq', h1, h2, h3, h4, h5⟩ := applySkippedUpdates_spec
        (w := (w.closed u.pts u.count).save u.pts u.payload)
        (by rw [save_applySkippedLevel]; exact hl)
        (fun _ => by rw [save_waitingForSkipped]; exact hwait.1)
      rw [skipped_eq_of_perm hq hchain hs', taggedCalls_snd] at hap
      rw [save_good] at h1
      rw [save_last] at h2
      rw [save_count] at h3
      rw [save_requesting] at h4
      exact ⟨w', by simp [updateAndApply, hup, hcall, hwait, hap], hq', h1, h2, h3, h4.trans hr, h5⟩

theorem updateAndApply_gapped {w : PtsWaiter U Us} {u : PtsUpdate U Us}
    {waiting seg : List (PtsUpdate U Us)} (hr : w.requesting = false)
    (hl : w.applySkippedLevel = 0) (hg : 0 < w.good) (hp : w.good < u.pts) (hc : 0 < u.count)
    (hb : u.pts < 2 ^ 31) (he : max w.last u.pts ≠ w.count + u.count)
    (hseg : seg.Perm (u :: waiting)) (hs : w.skipped.Perm (taggedCalls waiting))
    (hnew : u.pts.toNat ∉ w.skipped.map Prod.fst) :
    w.updateAndApply u.pts u.count u.payload =
      (false, (w.gapped u.pts u.count).save u.pts u.payload, []) ∧
    ((w.gapped u.pts u.count).save u.pts u.payload).skipped.Perm (taggedCalls seg) := by
  have hup := updated_of_fresh u.payload hr hl hg hp hc
  rw [if_neg he] at hup
  refine ⟨by simp [updateAndApply, hup], ?_⟩
  have htag := (taggedCalls_perm hseg).symm
  cases hcall : u.payload.call with
  | none =>
    have hsave : (w.gapped u.pts u.count).save u.pts u.payload = w.gapped u.pts u.count := by
      cases hpay : u.payload <;> simp_all [Payload.call, save]
    rw [hsave]
    refine hs.trans ((List.Perm.of_eq ?_).trans htag)
    simp [taggedCalls, hcall]
  | some call =>
    refine (skipped_save (w := w.gapped u.pts u.count) hcall (by omega) hb hnew).trans
      ((hs.cons _).trans ((List.Perm.of_eq ?_).trans htag))
    simp [taggedCalls, hcall]

omit [Inhabited U] [Inhabited Us] in
theorem toNat_not_mem_taggedCalls {us : List (PtsUpdate U Us)} {pts : Int} (hpts : 0 ≤ pts)
    (h : ∀ v ∈ us, 0 ≤ v.pts ∧ v.pts ≠ pts) : pts.toNat ∉ (taggedCalls us).map Prod.fst := by
  intro hm
  obtain ⟨x, hx, hxe⟩ := List.mem_map.mp hm
  obtain ⟨v, hv, hvx⟩ := List.mem_filterMap.mp hx
  obtain ⟨c, _, rfl⟩ := Option.map_eq_some_iff.mp hvx
  have := h v hv
  simp only at hxe
  omega

theorem Pending.deliver_old {p : Int} {pre done ahead : List (PtsUpdate U Us)}
    {s : PtsWaiter U Us × List (ApiCall U Us)} {u : PtsUpdate U Us}
    (hc : PtsChain s.1.good ahead) (h : Pending p pre done ahead s) (hcount : 0 < u.count)
    (hold : u.pts ≤ s.1.good) : Pending p (pre ++ [u]) done ahead (deliver s u) := by
  have hd : deliver s u = s := by
    simp [deliver, updateAndApply, updated_of_old u.payload h.requesting h.level hold hcount]
  have hf : ahead.filter (arrived (pre ++ [u])) = ahead.filter (arrived pre) := by
    refine List.filter_congr fun v hv => ?_
    have hne : v.pts ≠ u.pts := by have := (hc.lt_of_mem hv).1; omega
    simp [arrived_append_singleton, hne]
  rw [hd]
  exact { h with
    last := by rw [hf]; exact h.last
    count := by rw [hf]; exact h.count
    gap := by rw [hf]; exact h.gap
    skipped := by rw [hf]; exact h.skipped
    delivered := fun v hv => List.mem_append_left _ (h.delivered v hv) }

theorem Pending.deliver_new {p : Int} {pre done ahead : List (PtsUpdate U Us)}
    {s : PtsWaiter U Us × List (ApiCall U Us)} {u : PtsUpdate U Us} (hp : 0 < s.1.good)
    (hc : PtsChain s.1.good ahead) (h : Pending p pre done ahead s) (hu : u ∈ ahead)
    (hn : arrived pre u = false)
    (hpre : ∀ v ∈ ahead, arrived pre v = true → v ∈ pre) :
    ∃ seg rest, ahead = seg ++ rest ∧
      Pending p (pre ++ [u]) (done ++ seg) rest (deliver s u) := by
  have hlt := hc.lt_of_mem hu
  have hcount := hc.count_pos hu
  have hperm := filter_arrived_perm hc hu hn
  obtain ⟨hlast, hsum⟩ := h.arrive hc hu hn
  have hkey : u.pts.toNat ∉ s.1.skipped.map Prod.fst := by
    rw [(h.skipped.map Prod.fst).mem_iff]
    refine toNat_not_mem_taggedCalls (by omega) fun v hv => ?_
    obtain ⟨hv, ha⟩ := List.mem_filter.mp hv
    have := hc.lt_of_mem hv
    refine ⟨by omega, fun he => ?_⟩
    rw [hc.eq_of_pts hv hu he, hn] at ha
    cases ha
  by_cases he : max s.1.last u.pts = s.1.count + u.count
  · obtain ⟨rest, hsplit, hrest⟩ := (hc.picked (arrived (pre ++ [u]))).2 (by omega)
    have hchain := PtsChain.append.mp (hsplit ▸ hc)
    obtain ⟨w', hup, hq, h1, h2, h3, h4, h5⟩ := updateAndApply_closing h.requesting h.level hp
      hlt.1 hcount hlt.2 h.waiting he hp.le hchain.1 hperm h.skipped hkey
    have hd : deliver s u = (w', s.2 ++ calls (ahead.filter (arrived (pre ++ [u])))) := by
      simp [deliver, hup]
    have hgood : w'.good = endPts s.1.good (ahead.filter (arrived (pre ++ [u]))) := by
      rw [h1, hlast, hchain.1.maxPts_eq]
    refine ⟨_, rest, hsplit, ?_⟩
    rw [hd]
    constructor
    · rw [hgood, endPts_append, h.good]
    · simp only [hrest, maxPts, List.foldr_nil]
      rw [h2, h1]
    · simp only [hrest, totalCount, List.map_nil, List.sum_nil]
      rw [h3, h1, he, add_zero]
    · exact .inl hrest
    · simp [hrest, taggedCalls, PtsWaiter.skipped, hq]
    · simp [hq]
    · exact h5
    · exact h4
    · rw [calls_append, h.applied]
    · intro v hv
      rcases List.mem_append.mp hv with hv | hv
      · exact List.mem_append_left _ (h.delivered v hv)
      · obtain ⟨hva, harr⟩ := List.mem_filter.mp hv
        rw [arrived_append_singleton, Bool.or_eq_true, decide_eq_true_iff] at harr
        rcases harr with harr | harr
        · exact List.mem_append_left _ (hpre v hva harr)
        · rw [hc.eq_of_pts hva hu harr]
          exact List.mem_append_right _ (by simp)
  · obtain ⟨hup, hskip⟩ := updateAndApply_gapped h.requesting h.level hp hlt.1 hcount hlt.2 he
      hperm h.skipped hkey
    refine ⟨[], ahead, rfl, ?_⟩
    have hd : deliver s u = ((s.1.gapped u.pts u.count).save u.pts u.payload, s.2) := by
      simp [deliver, hup]
    rw [hd, List.append_nil]
    constructor
    · rw [save_good]; exact h.good
    · rw [save_last, save_good]; exact hlast
    · rw [save_count, save_good]; exact hsum
    · rw [save_last, save_count]; exact .inr he
    · exact hskip
    · intro _; rw [save_waitingForSkipped]; rfl
    · rw [save_applySkippedLevel]; exact h.level
    · rw [save_requesting]; exact h.requesting
    · exact h.applied
    · exact fun v hv => List.mem_append_left _ (h.delivered v hv)

/-- What the callers of the waiter may rely on after the deliveries `pre`: the
calls made are exactly those of the updates up to `current()`, once each and in
order, and each of these updates has been delivered. -/
def AppliedUpToCurrent (chain pre : List (PtsUpdate U Us))
    (s : PtsWaiter U Us × List (ApiCall U Us)) : Prop :=
  s.2 = calls (chain.filter fun u => decide (u.pts ≤ s.1.current)) ∧
    ∀ u ∈ chain, u.pts ≤ s.1.current → u ∈ pre

/-- Each update is new or already applied when it is delivered: none is handed
over again while its first copy is still waiting. -/
def NotWhileWaiting (w : PtsWaiter U Us) (us : List (PtsUpdate U Us)) : Prop :=
  ∀ pre u, pre ++ [u] <+: us → u.pts ≤ (deliverAll w pre).1.current ∨ u ∉ pre

theorem Pending.appliedUpToCurrent {p : Int} {pre done ahead : List (PtsUpdate U Us)}
    {s : PtsWaiter U Us × List (ApiCall U Us)} (hc : PtsChain p (done ++ ahead))
    (h : Pending p pre done ahead s) : AppliedUpToCurrent (done ++ ahead) pre s := by
  obtain ⟨hdone, hahead⟩ := PtsChain.append.mp hc
  have hle : ∀ u ∈ done, u.pts ≤ s.1.current := fun u hu => by
    rw [current, h.good]; exact hdone.le_endPts.2 u hu
  have hgt : ∀ u ∈ ahead, ¬ u.pts ≤ s.1.current := fun u hu => by
    rw [current, h.good]; exact not_le.mpr (hahead.lt_of_mem hu).1
  constructor
  · rw [h.applied, List.filter_append, List.filter_eq_self.mpr (by simpa using hle),
      List.filter_eq_nil_iff.mpr (by simpa using hgt), List.append_nil]
  · intro u hu hcur
    rcases List.mem_append.mp hu with hu | hu
    · exact h.delivered u hu
    · exact absurd hcur (hgt u hu)

theorem pending_of_deliverAll {p : Int} {w : PtsWaiter U Us} {chain us : List (PtsUpdate U Us)}
    (hw : Started p w) (hc : PtsChain p chain) (hus : ∀ u ∈ us, u ∈ chain)
    (hnew : NotWhileWaiting w us) :
    ∃ done ahead, chain = done ++ ahead ∧ Pending p us done ahead (deliverAll w us) := by
  induction us using List.reverseRecOn with
  | nil => exact ⟨[], chain, rfl, hw.pending chain⟩
  | append_singleton us u ih =>
    obtain ⟨done, ahead, rfl, h⟩ := ih (fun v hv => hus v (List.mem_append_left _ hv))
      (fun pre v hpre => hnew pre v (hpre.trans (List.prefix_append _ _)))
    obtain ⟨hdone, hahead⟩ := PtsChain.append.mp hc
    rw [← h.good] at hahead
    have hu : u ∈ done ++ ahead := hus u (by simp)
    have hpre : ∀ v ∈ us, v ∈ done ++ ahead := fun v hv => hus v (List.mem_append_left _ hv)
    have hpos : 0 < (deliverAll w us).1.good := by
      have := hdone.le_endPts.1
      have := hw.inited
      rw [h.good]
      omega
    have harrived : ∀ v ∈ done ++ ahead, arrived us v = true → v ∈ us := by
      intro v hv ha
      obtain ⟨x, hx, hxe⟩ := List.mem_map.mp (of_decide_eq_true ha)
      rwa [← hc.eq_of_pts (hpre x hx) hv hxe]
    rw [deliverAll_append_singleton]
    by_cases hold : u.pts ≤ (deliverAll w us).1.good
    · exact ⟨done, ahead, rfl, h.deliver_old hahead (hc.count_pos hu) hold⟩
    · have hua : u ∈ ahead := by
        rcases List.mem_append.mp hu with hu | hu
        · exact absurd (h.good ▸ hdone.le_endPts.2 u hu) hold
        · exact hu
      have hn : arrived us u = false := by
        rcases hnew us u (List.prefix_refl _) with hcur | hnot
        · exact absurd hcur hold
        · exact Bool.eq_false_iff.mpr fun ha => hnot (harrived u hu ha)
      obtain ⟨seg, rest, rfl, hd⟩ := h.deliver_new hpos hahead hua hn
        fun v hv => harrived v (List.mem_append_right _ hv)
      exact ⟨done ++ seg, rest, by simp, hd⟩

theorem NotWhileWaiting.mono {w : PtsWaiter U Us} {us vs : List (PtsUpdate U Us)}
    (h : NotWhileWaiting w us) (hv : vs <+: us) : NotWhileWaiting w vs :=
  fun pre u hpre => h pre u (hpre.trans hv)

theorem notWhileWaiting_of_nodup (w : PtsWaiter U Us) {us : List (PtsUpdate U Us)}
    (h : us.Nodup) : NotWhileWaiting w us := by
  intro pre u hpre
  have hnd := h.sublist hpre.sublist
  rw [List.nodup_append] at hnd
  exact .inr fun hu => hnd.2.2 u hu u (by simp) rfl

omit [Inhabited U] [Inhabited Us] in
theorem PtsChain.nodup {p : Int} {us : List (PtsUpdate U Us)} (h : PtsChain p us) : us.Nodup :=
  h.pairwise.imp fun hlt he => hlt.ne (congrArg PtsUpdate.pts he)

omit [Inhabited U] [Inhabited Us] in
theorem PtsChain.totalCount_eq {p : Int} {us : List (PtsUpdate U Us)} (h : PtsChain p us) :
    p + totalCount us = endPts p us := by
  induction us generalizing p with
  | nil => simp [totalCount, endPts]
  | cons u us ih =>
    have hi := ih h.2.2.2
    have hp := h.2.1
    simp only [totalCount, List.map_cons, List.sum_cons, endPts_cons] at hi ⊢
    omega

theorem Pending.ahead_eq_nil {p : Int} {pre done ahead : List (PtsUpdate U Us)}
    {s : PtsWaiter U Us × List (ApiCall U Us)} (hc : PtsChain s.1.good ahead)
    (h : Pending p pre done ahead s) (hall : ∀ u ∈ ahead, u ∈ pre) : ahead = [] := by
  have hf : ahead.filter (arrived pre) = ahead := by
    refine List.filter_eq_self.mpr fun u hu => ?_
    simpa [arrived] using ⟨u, hall u hu, rfl⟩
  have hgap := h.gap
  rw [h.last, h.count, hf, hc.maxPts_eq, hc.totalCount_eq] at hgap
  exact hgap.resolve_right fun hne => hne rfl

theorem queue_eq_empty {w : PtsWaiter U Us} (h : w.skipped = []) : w.queue = ∅ := by
  simpa [skipped, Std.ExtTreeMap.toList_eq_nil_iff] using h

/-- Whatever the order in which the updates of a chain arrive, at every moment
the applied ones are an initial segment of the chain, and after the last arrival
the whole chain is applied. -/
theorem ordered_delivery {p : Int} {w : PtsWaiter U Us} {chain us : List (PtsUpdate U Us)}
    (hw : Started p w) (hc : PtsChain p chain) (hus : us.Perm chain) :
    (∀ pre, pre <+: us → ∃ done, done <+: chain ∧ (∀ u ∈ done, u ∈ pre) ∧
      (deliverAll w pre).2 = calls done ∧ (deliverAll w pre).1.current = endPts p done) ∧
    (deliverAll w us).2 = calls chain ∧ (deliverAll w us).1.current = endPts p chain ∧
      (deliverAll w us).1.queue = ∅ := by
  have hnew : NotWhileWaiting w us := notWhileWaiting_of_nodup w (hus.nodup_iff.mpr hc.nodup)
  constructor
  · intro pre hpre
    obtain ⟨done, ahead, rfl, h⟩ := pending_of_deliverAll hw hc
      (fun u hu => hus.subset (hpre.subset hu)) (hnew.mono hpre)
    exact ⟨done, List.prefix_append _ _, h.delivered, h.applied, h.good⟩
  · obtain ⟨done, ahead, rfl, h⟩ := pending_of_deliverAll hw hc (fun u hu => hus.subset hu) hnew
    have hahead := (PtsChain.append.mp hc).2
    rw [← h.good] at hahead
    obtain rfl := h.ahead_eq_nil hahead
      fun u hu => hus.symm.subset (List.mem_append_right _ hu)
    rw [List.append_nil]
    exact ⟨h.applied, h.good, queue_eq_empty (List.perm_nil.mp h.skipped)⟩

def twoUpdates : List (PtsUpdate Nat Nat) := [⟨.update 1, 11, 1⟩, ⟨.update 2, 12, 1⟩]

def waiterAtTen : PtsWaiter Nat Nat := PtsWaiter.init {} 10

theorem twoUpdates_chain : PtsChain 10 twoUpdates := by
  simp [twoUpdates, PtsChain]

theorem waiterAtTen_started : Started 10 waiterAtTen := started_init (by decide) rfl

theorem ordered_delivery_swapped :
    (deliverAll waiterAtTen twoUpdates.reverse).2 = calls twoUpdates :=
  (ordered_delivery waiterAtTen_started twoUpdates_chain (List.reverse_perm _)).2.1

/-- Redelivery is harmless as long as no update is handed over again while its
first copy is waiting. -/
theorem redelivery_harmless {p : Int} {w : PtsWaiter U Us} {chain us : List (PtsUpdate U Us)}
    (hw : Started p w) (hc : PtsChain p chain) (hus : ∀ u ∈ us, u ∈ chain)
    (hnew : NotWhileWaiting w us) (pre : List (PtsUpdate U Us)) (hpre : pre <+: us) :
    AppliedUpToCurrent chain pre (deliverAll w pre) := by
  obtain ⟨done, ahead, rfl, h⟩ := pending_of_deliverAll hw hc
    (fun u hu => hus u (hpre.subset hu)) (hnew.mono hpre)
  exact h.appliedUpToCurrent hc

theorem redelivery_harmless_applied :
    AppliedUpToCurrent twoUpdates (twoUpdates.take 1 ++ twoUpdates.take 1)
      (deliverAll waiterAtTen (twoUpdates.take 1 ++ twoUpdates.take 1)) := by
  refine redelivery_harmless waiterAtTen_started twoUpdates_chain (by simp [twoUpdates]) ?_ _
    (List.prefix_refl _)
  rintro (_ | ⟨a, _ | ⟨b, pre⟩⟩) u hpre
  · simp
  · obtain ⟨rfl, rfl⟩ : a = ⟨.update 1, 11, 1⟩ ∧ u = ⟨.update 1, 11, 1⟩ := by
      simpa [twoUpdates, List.cons_prefix_cons] using hpre
    exact .inl (by decide)
  · simp [twoUpdates, List.cons_prefix_cons] at hpre

/-- The count of the second update, delivered twice, stands in for the missing
first one: the waiter moves on to pts 12 and applies the second update twice. -/
theorem redelivery_while_waiting_fills_gap :
    Started 10 waiterAtTen ∧ PtsChain 10 twoUpdates ∧
    (∀ u ∈ twoUpdates.drop 1 ++ twoUpdates.drop 1, u ∈ twoUpdates) ∧
    (deliverAll waiterAtTen (twoUpdates.drop 1 ++ twoUpdates.drop 1)).1.current = 12 ∧
    (deliverAll waiterAtTen (twoUpdates.drop 1 ++ twoUpdates.drop 1)).2 =
      [.applyUpdateNoPtsCheck 2, .applyUpdateNoPtsCheck 2] ∧
    ¬ AppliedUpToCurrent twoUpdates (twoUpdates.drop 1 ++ twoUpdates.drop 1)
      (deliverAll waiterAtTen (twoUpdates.drop 1 ++ twoUpdates.drop 1)) := by
  have hcur : (deliverAll waiterAtTen (twoUpdates.drop 1 ++ twoUpdates.drop 1)).1.current = 12 := by
    decide
  have hmade : (deliverAll waiterAtTen (twoUpdates.drop 1 ++ twoUpdates.drop 1)).2 =
      [.applyUpdateNoPtsCheck 2, .applyUpdateNoPtsCheck 2] := by
    decide
  refine ⟨waiterAtTen_started, twoUpdates_chain, by simp [twoUpdates], hcur, hmade, fun h => ?_⟩
  have hfirst := h.2 ⟨.update 1, 11, 1⟩ (by simp [twoUpdates]) (by rw [hcur]; decide)
  simp [twoUpdates] at hfirst

end TelegramClient
