import Mathlib
import TelegramClient.Rpl.EventStream

/-! Every value reaches every consumer once, as long as no nested fire upsets one around it. -/

namespace TelegramClient.Rpl

/-- The first place that the fire has not been at. -/
def Frame.next (f : Frame) : Nat := if f.inHandler then f.first + 1 else f.first

/-- The frame after its handler has returned. -/
def Frame.kept (f : Frame) : Frame :=
  { f with first := f.first + 1, result := f.result + 1, inHandler := false }

namespace EventStream

open Slots

/-- A fire on its way: there is nobody between the kept ones and its place, and those it has
still to reach are those still due. -/
structure FrameOk (s : EventStream) (f : Frame) : Prop where
  result_le : f.result ≤ f.first
  first_le : f.first ≤ f.stop
  stop_le : f.stop ≤ s.consumers.length
  gap : ∀ n, f.result ≤ n → n < f.first → s.target n = none
  due : ∃ due, s.fires[f.fire]? = some due ∧
    between s.target f.next f.stop =
      due.filter fun c => c ∉ s.terminated ∧ (f.fire, c) ∉ s.delivered

/-- The invariant of a stream whose fires on their way are `frames`, the innermost first. -/
structure Inv (s : EventStream) (frames : List Frame) : Prop where
  terminated_lt : ∀ c ∈ s.terminated, c < s.subscribed
  alive : between s.target 0 s.consumers.length = s.subscribers
  frameOk : ∀ f ∈ frames, FrameOk s f
  nested : frames.Pairwise fun f outer =>
    f.fire ≠ outer.fire ∧ outer.stop ≤ f.stop ∧ outer.inHandler = true
  once : s.delivered.Nodup
  entitled : ∀ (i : Nat) (c : Consumer), (i, c) ∈ s.delivered →
    ∃ due, s.fires[i]? = some due ∧ c ∈ due
  inTurn : ∀ (i : Nat) (due : List Consumer) (c c' : Consumer), s.fires[i]? = some due →
    [c, c'].Sublist due → (i, c') ∈ s.delivered → (i, c) ∈ s.delivered ∨ c ∈ s.terminated
  complete : ∀ (i : Nat) (due : List Consumer), s.fires[i]? = some due →
    (∀ f ∈ frames, f.fire ≠ i) → ∀ c ∈ due, (i, c) ∈ s.delivered ∨ c ∈ s.terminated

variable {s s' : EventStream} {f : Frame} {rest frames : List Frame}

theorem nodup_subscribers (s : EventStream) : s.subscribers.Nodup :=
  List.nodup_range.filter _

theorem mem_subscribers {c : Consumer} : c ∈ s.subscribers ↔ c < s.subscribed ∧ c ∉ s.terminated := by
  rw [subscribers, List.mem_filter, List.mem_range, decide_eq_true_eq]

theorem target_eq_some {n : Nat} {c : Consumer} :
    s.target n = some c ↔ s.consumers[n]?.join = some c ∧ c ∉ s.terminated := by
  rw [target, Option.filter_eq_some_iff, decide_eq_true_eq]

theorem target_congr {n m : Nat} (h : s'.consumers[n]?.join = s.consumers[m]?.join)
    (hterminated : s'.terminated = s.terminated) : s'.target n = s.target m := by
  rw [target, target, h, hterminated]

theorem FrameOk.congr (h : FrameOk s f) (hlen : f.stop ≤ s'.consumers.length)
    (hgap : ∀ n, f.result ≤ n → n < f.first → s'.target n = none)
    (hahead : between s'.target f.next f.stop = between s.target f.next f.stop)
    (hterminated : s'.terminated = s.terminated) (hfires : s'.fires = s.fires)
    (hdelivered : ∀ c, (f.fire, c) ∈ s'.delivered ↔ (f.fire, c) ∈ s.delivered) : FrameOk s' f where
  result_le := h.result_le
  first_le := h.first_le
  stop_le := hlen
  gap := hgap
  due := by
    obtain ⟨due, hfire, hdue⟩ := h.due
    refine ⟨due, by rw [hfires, hfire], ?_⟩
    rw [hahead, hdue, hterminated]
    refine List.filter_congr fun c _ => ?_
    simp only [hdelivered c]

theorem Inv.of_frames (h : Inv s frames) (stack : List Frame) :
    Inv { s with frames := stack } frames where
  terminated_lt := h.terminated_lt
  alive := h.alive
  frameOk := fun f hf => by
    have hok := h.frameOk f hf
    exact hok.congr hok.stop_le hok.gap rfl rfl rfl fun _ => Iff.rfl
  nested := h.nested
  once := h.once
  entitled := h.entitled
  inTurn := h.inTurn
  complete := h.complete

theorem Inv.subscribe (h : Inv s frames) : Inv s.subscribe frames := by
  have hnew : s.subscribed ∉ s.terminated := fun hmem => Nat.lt_irrefl _ (h.terminated_lt _ hmem)
  have hold : ∀ n < s.consumers.length, s.subscribe.target n = s.target n := fun n hn =>
    target_congr (congrArg Option.join (List.getElem?_append_left hn)) rfl
  have hlast : s.subscribe.target s.consumers.length = some s.subscribed :=
    target_eq_some.mpr ⟨congrArg Option.join (List.getElem?_concat_length ..), hnew⟩
  have hlen : s.subscribe.consumers.length = s.consumers.length + 1 := List.length_append
  refine ⟨fun c hc => Nat.lt_succ_of_lt (h.terminated_lt c hc), ?_, ?_, h.nested, h.once,
    h.entitled, h.inTurn, h.complete⟩
  · have hkept : decide (s.subscribed ∉ s.terminated) = true := decide_eq_true hnew
    rw [hlen, ← between_append (Nat.zero_le _) (Nat.le_succ _), between_cons (Nat.lt_succ_self _),
      between_self, hlast, between_congr fun n _ hn => hold n hn, h.alive, subscribers, subscribers,
      EventStream.subscribe, List.range_succ, List.filter_append, List.filter_singleton, hkept]
    rfl
  · intro f hf
    have hok := h.frameOk f hf
    refine hok.congr ?_ ?_ ?_ rfl rfl fun _ => Iff.rfl
    · exact hlen ▸ Nat.le_succ_of_le hok.stop_le
    · intro n hn hn'
      rw [hold n (hn'.trans_le (hok.first_le.trans hok.stop_le))]
      exact hok.gap n hn hn'
    · exact between_congr fun n _ hn => hold n (hn.trans_le hok.stop_le)

theorem target_terminate (s : EventStream) (c : Consumer) (n : Nat) :
    (s.terminate c).target n = (s.target n).filter fun b => b ≠ c := by
  rw [target, target, EventStream.terminate, Option.filter_filter]
  congr 1
  funext b
  by_cases hb : b = c
  · simp [hb]
  · simp [hb]

theorem between_terminate (s : EventStream) (c : Consumer) (i j : Nat) :
    between (s.terminate c).target i j = (between s.target i j).filter fun b => b ≠ c := by
  rw [← between_filter]
  exact between_congr fun n _ _ => target_terminate s c n

theorem Inv.terminate (h : Inv s frames) {c : Consumer} (hc : c < s.subscribed) :
    Inv (s.terminate c) frames := by
  refine ⟨?_, ?_, ?_, h.nested, h.once, h.entitled, ?_, ?_⟩
  · intro b hb
    cases hb with
    | head => exact hc
    | tail _ hb => exact h.terminated_lt b hb
  · have hlen : (s.terminate c).consumers.length = s.consumers.length := rfl
    rw [hlen, between_terminate, h.alive, subscribers, subscribers, List.filter_filter]
    congr 1
    funext b
    by_cases hb : b = c
    · simp [hb, EventStream.terminate]
    · simp [hb, EventStream.terminate]
  · intro f hf
    have hok := h.frameOk f hf
    refine ⟨hok.result_le, hok.first_le, hok.stop_le, ?_, ?_⟩
    · intro n hn hn'
      rw [target_terminate, hok.gap n hn hn']
      rfl
    · obtain ⟨due, hfire, hdue⟩ := hok.due
      refine ⟨due, hfire, ?_⟩
      rw [between_terminate, hdue, List.filter_filter]
      congr 1
      funext b
      by_cases hb : b = c
      · simp [hb, EventStream.terminate]
      · simp [hb, EventStream.terminate]
  · exact fun i due a b hdue hsub hb =>
      (h.inTurn i due a b hdue hsub hb).imp_right (List.mem_cons_of_mem c)
  · exact fun i due hdue hover b hb =>
      (h.complete i due hdue hover b hb).imp_right (List.mem_cons_of_mem c)

theorem Inv.inHandler (h : Inv s s.frames) (huser : s.userRuns = true) :
    ∀ f ∈ s.frames, f.inHandler = true := by
  have hnested := h.nested
  rw [userRuns] at huser
  cases hframes : s.frames with
  | nil =>
    intro f hf
    cases hf
  | cons top rest =>
    rw [hframes] at huser hnested
    intro f hf
    rcases List.mem_cons.mp hf with rfl | hf
    · exact huser
    · exact ((List.pairwise_cons.mp hnested).1 f hf).2.2

theorem Inv.fire (h : Inv s s.frames) (huser : s.userRuns = true) : Inv s.fire s.fire.frames := by
  have hlt : ∀ f ∈ s.frames, f.fire < s.fires.length := by
    intro f hf
    obtain ⟨due, hfire, -⟩ := (h.frameOk f hf).due
    exact (List.getElem?_eq_some_iff.mp hfire).1
  have hnone : ∀ c, (s.fires.length, c) ∉ s.delivered := by
    intro c hc
    obtain ⟨due, hfire, -⟩ := h.entitled _ c hc
    exact absurd (List.getElem?_eq_some_iff.mp hfire).1 (Nat.lt_irrefl _)
  have hold : ∀ (i : Nat) (due : List Consumer), s.fires[i]? = some due →
      (s.fires ++ [s.subscribers])[i]? = some due := by
    intro i due hfire
    rw [List.getElem?_append_left (List.getElem?_eq_some_iff.mp hfire).1]
    exact hfire
  have hcases : ∀ (i : Nat) (due : List Consumer), (s.fires ++ [s.subscribers])[i]? = some due →
      s.fires[i]? = some due ∨ (i = s.fires.length ∧ due = s.subscribers) := by
    intro i due hfire
    rcases Nat.lt_or_ge i s.fires.length with hi | hi
    · rw [List.getElem?_append_left hi] at hfire
      exact .inl hfire
    · rw [List.getElem?_append_right hi, List.getElem?_singleton] at hfire
      split at hfire
      · cases hfire
        exact .inr ⟨by omega, rfl⟩
      · cases hfire
  have hframes : ∀ f ∈ s.frames, FrameOk s.fire f := by
    intro f hf
    have hok := h.frameOk f hf
    obtain ⟨due, hfire, hdue⟩ := hok.due
    rw [EventStream.fire]
    split
    · exact ⟨hok.result_le, hok.first_le, hok.stop_le, hok.gap, due, hold _ due hfire, hdue⟩
    · exact ⟨hok.result_le, hok.first_le, hok.stop_le, hok.gap, due, hold _ due hfire, hdue⟩
  have hinTurn : ∀ (i : Nat) (due : List Consumer) (c c' : Consumer),
      (s.fires ++ [s.subscribers])[i]? = some due → [c, c'].Sublist due → (i, c') ∈ s.delivered →
        (i, c) ∈ s.delivered ∨ c ∈ s.terminated := by
    intro i due c c' hfire hsub hc
    obtain hfire | ⟨rfl, -⟩ := hcases i due hfire
    · exact h.inTurn i due c c' hfire hsub hc
    · exact absurd hc (hnone c')
  have hentitled : ∀ (i : Nat) (c : Consumer), (i, c) ∈ s.delivered →
      ∃ due, (s.fires ++ [s.subscribers])[i]? = some due ∧ c ∈ due := by
    intro i c hc
    obtain ⟨due, hfire, hmem⟩ := h.entitled i c hc
    exact ⟨due, hold i due hfire, hmem⟩
  by_cases hempty : s.consumers = []
  · have hfired : s.fire = { s with fires := s.fires ++ [s.subscribers] } := if_pos hempty
    rw [hfired] at hframes ⊢
    refine ⟨h.terminated_lt, h.alive, hframes, h.nested, h.once, hentitled, hinTurn, ?_⟩
    intro i due hfire hover c hc
    obtain hfire | ⟨-, rfl⟩ := hcases i due hfire
    · exact h.complete i due hfire hover c hc
    · rw [← h.alive, hempty] at hc
      cases hc
  · have hfired : s.fire = { s with
        fires := s.fires ++ [s.subscribers]
        frames := ⟨s.fires.length, s.consumers.length, 0, 0, false⟩ :: s.frames } := if_neg hempty
    rw [hfired] at hframes ⊢
    refine ⟨h.terminated_lt, h.alive, ?_, ?_, h.once, hentitled, hinTurn, ?_⟩
    · intro f hf
      cases hf with
      | head =>
        refine ⟨Nat.le_refl 0, Nat.zero_le _, Nat.le_refl _, fun n _ hn => ?_, s.subscribers, ?_, ?_⟩
        · exact absurd hn (Nat.not_lt_zero n)
        · simp
        · refine h.alive.trans (List.filter_eq_self.mpr fun c hc => ?_).symm
          exact decide_eq_true ⟨(mem_subscribers.mp hc).2, hnone c⟩
      | tail _ hf => exact hframes f hf
    · refine List.pairwise_cons.mpr ⟨fun f hf => ⟨?_, (h.frameOk f hf).stop_le, ?_⟩, h.nested⟩
      · exact Nat.ne_of_gt (hlt f hf)
      · exact h.inHandler huser f hf
    · intro i due hfire hover c hc
      obtain hfire | ⟨rfl, -⟩ := hcases i due hfire
      · exact h.complete i due hfire (fun f hf => hover f (List.mem_cons_of_mem _ hf)) c hc
      · exact absurd rfl (hover _ List.mem_cons_self)

/-- The handler of the consumer at the place of the fire is called. -/
theorem Inv.deliver (h : Inv s (f :: rest)) (hf : f.inHandler = false) (hlt : f.first < f.stop)
    {c : Consumer} (hc : s.target f.first = some c) :
    Inv { s with delivered := (f.fire, c) :: s.delivered }
      ({ f with inHandler := true } :: rest) := by
  have hok := h.frameOk f List.mem_cons_self
  have hnext : f.next = f.first := by simp [Frame.next, hf]
  obtain ⟨due, hfire, hdue⟩ := hok.due
  have hhead := hdue
  rw [hnext, between_cons hlt, hc, Option.toList_some, List.singleton_append] at hhead
  have hnodup : (c :: between s.target (f.first + 1) f.stop).Nodup := by
    have hsub := between_sublist (f := s.target) (Nat.zero_le f.first) hok.stop_le
    rw [between_cons hlt, hc, h.alive] at hsub
    exact (nodup_subscribers s).sublist hsub
  have hcdue : c ∈ due ∧ c ∉ s.terminated ∧ (f.fire, c) ∉ s.delivered := by
    have hmem : c ∈ due.filter fun c => c ∉ s.terminated ∧ (f.fire, c) ∉ s.delivered := by
      rw [← hhead]
      exact List.mem_cons_self
    rw [List.mem_filter, decide_eq_true_eq] at hmem
    exact hmem
  refine ⟨h.terminated_lt, h.alive, ?_, ?_, List.nodup_cons.mpr ⟨hcdue.2.2, h.once⟩, ?_, ?_, ?_⟩
  · intro g hg
    cases hg with
    | head =>
      refine ⟨hok.result_le, hok.first_le, hok.stop_le, hok.gap, due, hfire, ?_⟩
      have hrest : between s.target (f.first + 1) f.stop =
          (c :: between s.target (f.first + 1) f.stop).filter fun b => b ≠ c := by
        rw [List.filter_cons_of_neg (by simp)]
        refine (List.filter_eq_self.mpr fun b hb => ?_).symm
        refine decide_eq_true fun hbc => ?_
        exact (List.nodup_cons.mp hnodup).1 (hbc ▸ hb)
      rw [hhead, List.filter_filter] at hrest
      refine hrest.trans (List.filter_congr fun b _ => ?_)
      by_cases hb : b = c
      · simp [hb]
      · simp [hb]
    | tail _ hg =>
      have hne := ((List.pairwise_cons.mp h.nested).1 g hg).1
      have hgok := h.frameOk g (List.mem_cons_of_mem f hg)
      refine hgok.congr hgok.stop_le hgok.gap rfl rfl rfl fun b => ?_
      rw [List.mem_cons, Prod.mk.injEq]
      constructor
      · rintro (⟨heq, -⟩ | hb)
        · exact absurd heq.symm hne
        · exact hb
      · exact .inr
  · exact List.pairwise_cons.mpr (List.pairwise_cons.mp h.nested)
  · intro i b hb
    cases hb with
    | head => exact ⟨due, hfire, hcdue.1⟩
    | tail _ hb => exact h.entitled i b hb
  · intro i due' a b hfire' hsub hb
    cases hb with
    | head =>
      rw [hfire] at hfire'
      cases hfire'
      by_cases ha : a ∈ s.terminated ∨ (f.fire, a) ∈ s.delivered
      · exact ha.symm.imp_left (List.mem_cons_of_mem _)
      · -- both are still due, but nobody is in front of the first one
        have hkept := hsub.filter fun c => decide (c ∉ s.terminated ∧ (f.fire, c) ∉ s.delivered)
        rw [not_or] at ha
        rw [List.filter_cons_of_pos (by simpa using ha),
          List.filter_cons_of_pos (by simpa using hcdue.2), ← hhead] at hkept
        cases hkept with
        | cons _ hkept => exact absurd (hkept.subset (by simp)) (List.nodup_cons.mp hnodup).1
        | cons_cons _ hkept => exact absurd (hkept.subset (by simp)) (List.nodup_cons.mp hnodup).1
    | tail _ hb => exact (h.inTurn i due' a b hfire' hsub hb).imp_left (List.mem_cons_of_mem _)
  · intro i due' hfire' hover b hb
    have hover' : ∀ g ∈ f :: rest, g.fire ≠ i := by
      intro g hg
      cases hg with
      | head => exact hover { f with inHandler := true } List.mem_cons_self
      | tail _ hg => exact hover g (List.mem_cons_of_mem _ hg)
    exact (h.complete i due' hfire' hover' b hb).imp_left (List.mem_cons_of_mem _)

/-- A stale consumer loses its handlers, and the fire goes on behind it. -/
theorem Inv.skip (h : Inv s (f :: rest)) (hf : f.inHandler = false) (hlt : f.first < f.stop)
    (hnone : s.target f.first = none) :
    Inv { s with consumers := s.consumers.set f.first none }
      ({ f with first := f.first + 1 } :: rest) := by
  have hok := h.frameOk f List.mem_cons_self
  have hnext : f.next = f.first := by simp [Frame.next, hf]
  have hnext' : ({ f with first := f.first + 1 } : Frame).next = f.first + 1 := by
    simp [Frame.next, hf]
  have hlen : (s.consumers.set f.first none).length = s.consumers.length := List.length_set
  have hsame : ({ s with consumers := s.consumers.set f.first none } : EventStream).target =
      s.target := by
    funext n
    by_cases hn : n = f.first
    · rw [hn, hnone, target, join_set_none, if_pos rfl]
      rfl
    · refine target_congr ?_ rfl
      rw [join_set_none, if_neg hn]
  refine ⟨h.terminated_lt, ?_, ?_, ?_, h.once, h.entitled, h.inTurn, ?_⟩
  · rw [hsame, hlen]
    exact h.alive
  · intro g hg
    cases hg with
    | head =>
      obtain ⟨due, hfire, hdue⟩ := hok.due
      rw [hnext, between_cons hlt, hnone] at hdue
      refine ⟨Nat.le_succ_of_le hok.result_le, hlt, hlen ▸ hok.stop_le, ?_, due, hfire, ?_⟩
      · intro n hn hn'
        rw [hsame]
        rcases Nat.lt_succ_iff_lt_or_eq.mp hn' with hn' | rfl
        · exact hok.gap n hn hn'
        · exact hnone
      · rw [hsame, hnext']
        exact hdue
    | tail _ hg =>
      have hgok := h.frameOk g (List.mem_cons_of_mem f hg)
      refine hgok.congr (hlen ▸ hgok.stop_le) ?_ ?_ rfl rfl fun _ => Iff.rfl
      · rw [hsame]
        exact hgok.gap
      · rw [hsame]
  · exact List.pairwise_cons.mpr (List.pairwise_cons.mp h.nested)
  · intro i due hfire hover c hc
    refine h.complete i due hfire (fun g hg => ?_) c hc
    cases hg with
    | head => exact hover { f with first := f.first + 1 } List.mem_cons_self
    | tail _ hg => exact hover g (List.mem_cons_of_mem _ hg)

/-- The consumers after the handler of the fire has returned. -/
def moved (s : EventStream) (f : Frame) : List (Option Consumer) :=
  if f.result = f.first then s.consumers else move s.consumers f.first f.result

theorem length_moved (s : EventStream) (f : Frame) : (s.moved f).length = s.consumers.length := by
  rw [moved]
  split
  · rfl
  · exact length_move

/-- The consumer at the place of the fire comes behind the kept ones. -/
theorem target_moved (hok : FrameOk s f) (hlt : f.first < f.stop) (n : Nat) :
    ({ s with consumers := s.moved f } : EventStream).target n =
      if n = f.result then s.target f.first else if n = f.first then none else s.target n := by
  by_cases hplace : f.result = f.first
  · have hsame : s.moved f = s.consumers := if_pos hplace
    rw [hsame, hplace]
    by_cases hn : n = f.first
    · rw [if_pos hn, hn]
    · rw [if_neg hn, if_neg hn]
  · have hmove : s.moved f = move s.consumers f.first f.result := if_neg hplace
    have hresult : f.result < s.consumers.length := by
      have := hok.result_le
      have := hok.stop_le
      omega
    by_cases hn : n = f.result
    · rw [if_pos hn, hn]
      refine target_congr ?_ rfl
      rw [hmove, join_move hresult, if_neg hplace, if_pos rfl]
    · rw [if_neg hn]
      by_cases hn' : n = f.first
      · rw [if_pos hn', hn', target, hmove, join_move hresult, if_pos rfl]
        rfl
      · rw [if_neg hn']
        refine target_congr ?_ rfl
        rw [hmove, join_move hresult, if_neg hn', if_neg hn]

/-- A fire around another one does not notice that a consumer is kept. -/
theorem FrameOk.moved {g : Frame} (hg : FrameOk s g) (hok : FrameOk s f) (hlt : f.first < f.stop)
    (hhandler : g.inHandler = true)
    (hstill : f.result ≠ f.first → s.target f.first ≠ none → ¬g.Upset f.first f.result) :
    FrameOk { s with consumers := s.moved f } g := by
  have hnext : g.next = g.first + 1 := by simp [Frame.next, hhandler]
  have htarget := target_moved hok hlt
  have hle := hok.result_le
  by_cases hmoves : f.result = f.first ∨ s.target f.first = none
  · have hsame : ({ s with consumers := s.moved f } : EventStream).target = s.target := by
      funext n
      rw [htarget]
      by_cases hn : n = f.result
      · rw [if_pos hn, hn]
        obtain hplace | hnone := hmoves
        · rw [hplace]
        · rcases Nat.lt_or_eq_of_le hle with hlt' | hplace
          · rw [hnone, hok.gap _ (Nat.le_refl _) hlt']
          · rw [hplace]
      · rw [if_neg hn]
        by_cases hn' : n = f.first
        · rw [if_pos hn', hn']
          obtain hplace | hnone := hmoves
          · exact absurd (hn'.trans hplace.symm) hn
          · exact hnone.symm
        · rw [if_neg hn']
    refine hg.congr (length_moved s f ▸ hg.stop_le) ?_ ?_ rfl rfl fun _ => Iff.rfl
    · rw [hsame]
      exact hg.gap
    · rw [hsame]
  · rw [not_or] at hmoves
    have hstill := hstill hmoves.1 hmoves.2
    rw [Frame.Upset, not_or, not_or] at hstill
    obtain ⟨hlost, hpassed, hearly⟩ := hstill
    refine hg.congr (length_moved s f ▸ hg.stop_le) ?_ ?_ rfl rfl fun _ => Iff.rfl
    · intro n hn hn'
      rw [htarget, if_neg fun heq : n = f.result => hlost ⟨heq ▸ hn, heq ▸ hn'⟩]
      split
      · rfl
      · exact hg.gap n hn hn'
    · rw [hnext]
      by_cases hinside : g.first < f.result ∧ f.first < g.stop
      · refine between_move hinside.1 (Nat.lt_of_le_of_ne hle hmoves.1) hinside.2 hok.gap ?_ ?_ ?_
        · rw [htarget, if_pos rfl]
        · rw [htarget, if_neg (Ne.symm hmoves.1), if_pos rfl]
        · intro m hm hm'
          rw [htarget, if_neg hm', if_neg hm]
      · refine between_congr fun n hn hn' => ?_
        rw [htarget, if_neg (by omega), if_neg (by omega)]

theorem Inv.moved (h : Inv s (f :: rest)) (hf : f.inHandler = true) (hlt : f.first < f.stop)
    (hstill : ¬s.MoveUpsets f rest) :
    Inv { s with consumers := s.moved f } (f.kept :: rest) := by
  have hok := h.frameOk f List.mem_cons_self
  have hnext : f.next = f.first + 1 := by simp [Frame.next, hf]
  have hlen := length_moved s f
  have htarget := target_moved hok hlt
  have hle := hok.result_le
  refine ⟨h.terminated_lt, ?_, ?_, ?_, h.once, h.entitled, h.inTurn, ?_⟩
  · refine Eq.trans ?_ h.alive
    rw [hlen]
    by_cases hplace : f.result = f.first
    · refine between_congr fun n _ _ => ?_
      rw [htarget, hplace]
      by_cases hn : n = f.first
      · rw [if_pos hn, hn]
      · rw [if_neg hn, if_neg hn]
    · refine between_move (Nat.zero_le _) (Nat.lt_of_le_of_ne hle hplace)
        (hlt.trans_le hok.stop_le) hok.gap ?_ ?_ ?_
      · rw [htarget, if_pos rfl]
      · rw [htarget, if_neg (Ne.symm hplace), if_pos rfl]
      · intro m hm hm'
        rw [htarget, if_neg hm', if_neg hm]
  · intro g hg
    cases hg with
    | head =>
      obtain ⟨due, hfire, hdue⟩ := hok.due
      refine ⟨Nat.succ_le_succ hle, hlt, hlen ▸ hok.stop_le, ?_, due, hfire, ?_⟩
      · intro n hn hn'
        rw [htarget, if_neg (Nat.ne_of_gt hn)]
        rcases Nat.lt_succ_iff_lt_or_eq.mp hn' with hn' | rfl
        · rw [if_neg (Nat.ne_of_lt hn')]
          exact hok.gap n (Nat.le_of_succ_le hn) hn'
        · exact if_pos rfl
      · rw [hnext] at hdue
        refine Eq.trans (between_congr fun n hn _ => ?_) hdue
        have hn : f.first + 1 ≤ n := hn
        rw [htarget, if_neg (by omega), if_neg (by omega)]
    | tail _ hg =>
      have hgok := h.frameOk g (List.mem_cons_of_mem f hg)
      have hhandler := ((List.pairwise_cons.mp h.nested).1 g hg).2.2
      exact hgok.moved hok hlt hhandler fun hplace hlive hupset =>
        hstill ⟨hplace, hlive, g, hg, hupset⟩
  · exact List.pairwise_cons.mpr (List.pairwise_cons.mp h.nested)
  · intro i due hfire hover c hc
    refine h.complete i due hfire (fun g hg => ?_) c hc
    cases hg with
    | head => exact hover f.kept List.mem_cons_self
    | tail _ hg => exact hover g (List.mem_cons_of_mem _ hg)

/-- The outermost fire erases what is behind the kept and the new consumers. -/
theorem between_erased {l : List (Option Consumer)} {i j : Nat} (hij : i ≤ j)
    (hj : j ≤ s.consumers.length) (hgap : ∀ n, i ≤ n → n < j → s.target n = none)
    (hl : l = s.consumers.take i ++ s.consumers.drop j) :
    between ({ s with consumers := l } : EventStream).target 0 l.length =
      between s.target 0 s.consumers.length := by
  have hi : (s.consumers.take i).length = i := List.length_take_of_le (hij.trans hj)
  have hlen : l.length = i + (s.consumers.length - j) := by
    rw [hl, List.length_append, hi, List.length_drop]
  have hfront : between ({ s with consumers := l } : EventStream).target 0 i =
      between s.target 0 i := by
    refine between_congr fun n _ hn => target_congr ?_ rfl
    have hget : l[n]? = s.consumers[n]? := by
      rw [hl, List.getElem?_append_left (by omega), List.getElem?_take, if_pos hn]
    exact congrArg Option.join hget
  have hback : between ({ s with consumers := l } : EventStream).target i l.length =
      between s.target j s.consumers.length := by
    have hshift := between_shift (f := s.target) (i := i) (j := l.length) (j - i)
    rw [show i + (j - i) = j by omega, show l.length + (j - i) = s.consumers.length by omega]
      at hshift
    rw [← hshift]
    refine between_congr fun n hn _ => target_congr ?_ rfl
    have hget : l[n]? = s.consumers[n + (j - i)]? := by
      rw [hl, List.getElem?_append_right (by omega), hi, List.getElem?_drop]
      congr 1
      omega
    exact congrArg Option.join hget
  rw [← between_append (Nat.zero_le i) (by omega), hfront, hback,
    ← between_append (Nat.zero_le i) (hij.trans hj), ← between_append hij hj, between_eq_nil hgap,
    List.nil_append]

section Copied

variable {l : List (Option Consumer)} {i j : Nat} (hij : i ≤ j) (hj : j ≤ s.consumers.length)
  (hl : l = s.consumers.take i ++ s.consumers.drop j ++
    s.consumers.drop (i + (s.consumers.drop j).length))

include hij hj hl

theorem target_copied (n : Nat) :
    ({ s with consumers := l } : EventStream).target n =
      if i ≤ n ∧ n < i + (s.consumers.length - j) then s.target (n - i + j) else s.target n := by
  have hget := getElem?_copy (n := n) hij hj
  rw [← hl] at hget
  by_cases hn : i ≤ n ∧ n < i + (s.consumers.length - j)
  · rw [if_pos hn] at hget ⊢
    exact target_congr (congrArg Option.join hget) rfl
  · rw [if_neg hn] at hget ⊢
    exact target_congr (congrArg Option.join hget) rfl

theorem length_copied : l.length = s.consumers.length := by
  rw [hl]
  simp only [List.length_append, List.length_take, List.length_drop]
  omega

/-- When no new consumer stays where it was too, the same consumers are found. -/
theorem between_copied (hgap : ∀ n, i ≤ n → n < j → s.target n = none)
    (honce : ∀ n, j ≤ n → s.target n ≠ none → n < i + (s.consumers.length - j)) :
    between ({ s with consumers := l } : EventStream).target 0 l.length =
      between s.target 0 s.consumers.length := by
  have htarget := target_copied hij hj hl
  have hlast : i + (s.consumers.length - j) ≤ s.consumers.length := by omega
  have hfront : between ({ s with consumers := l } : EventStream).target 0 i =
      between s.target 0 i := by
    refine between_congr fun n _ hn => ?_
    rw [htarget, if_neg (by omega)]
  have hmid : between ({ s with consumers := l } : EventStream).target i
      (i + (s.consumers.length - j)) = between s.target j s.consumers.length := by
    have hshift := between_shift (f := s.target) (i := i) (j := i + (s.consumers.length - j)) (j - i)
    rw [show i + (j - i) = j by omega,
      show i + (s.consumers.length - j) + (j - i) = s.consumers.length by omega] at hshift
    rw [← hshift]
    refine between_congr fun n hn hn' => ?_
    rw [htarget, if_pos ⟨hn, hn'⟩]
    congr 1
    omega
  have hback : between ({ s with consumers := l } : EventStream).target
      (i + (s.consumers.length - j)) s.consumers.length = [] := by
    refine between_eq_nil fun n hn _ => ?_
    rw [htarget, if_neg (by omega)]
    by_cases hnj : n < j
    · exact hgap n (by omega) hnj
    · by_contra hlive
      exact absurd (honce n (by omega) hlive) (by omega)
  rw [length_copied hij hj hl, ← between_append (Nat.zero_le i) (hij.trans hj),
    ← between_append (Nat.le_add_right _ _) hlast, hfront, hmid, hback, List.append_nil,
    ← between_append (Nat.zero_le i) (hij.trans hj), ← between_append hij hj, between_eq_nil hgap,
    List.nil_append]

end Copied

theorem Inv.finish (h : Inv s (f :: rest)) (hf : f.inHandler = false) (hstop : f.first = f.stop)
    (hcopy : rest ≠ [] → f.result ≠ f.stop → ∀ i, f.stop ≤ i → s.target i ≠ none →
      i < f.result + (s.consumers.length - f.stop) ∧
        ∀ outer ∈ rest, ¬outer.Upset i (i - f.stop + f.result)) :
    Inv (s.finish f rest f.result) rest := by
  have hok := h.frameOk f List.mem_cons_self
  have hle : f.result ≤ f.stop := hstop ▸ hok.result_le
  have hgap : ∀ n, f.result ≤ n → n < f.stop → s.target n = none := hstop ▸ hok.gap
  have hcomplete : ∀ (i : Nat) (due : List Consumer), s.fires[i]? = some due →
      (∀ g ∈ rest, g.fire ≠ i) → ∀ c ∈ due, (i, c) ∈ s.delivered ∨ c ∈ s.terminated := by
    intro i due hfire hover c hc
    by_cases hi : f.fire = i
    · obtain ⟨due', hfire', hdue⟩ := hok.due
      have hnext : f.next = f.stop := by simp [Frame.next, hf, hstop]
      rw [hi, hfire] at hfire'
      cases hfire'
      rw [hnext, between_self, hi] at hdue
      have hnobody := List.filter_eq_nil_iff.mp hdue.symm c hc
      rw [decide_eq_true_eq, not_and_or, not_not, not_not] at hnobody
      exact hnobody.symm
    · refine h.complete i due hfire (fun g hg => ?_) c hc
      cases hg with
      | head => exact hi
      | tail _ hg => exact hover g hg
  have hnested := List.pairwise_cons.mp h.nested
  by_cases hstale : f.result = f.stop
  · rw [EventStream.finish, if_pos hstale]
    have hrest : Inv s rest :=
      ⟨h.terminated_lt, h.alive, fun g hg => h.frameOk g (List.mem_cons_of_mem f hg), hnested.2,
        h.once, h.entitled, h.inTurn, hcomplete⟩
    exact hrest.of_frames rest
  · by_cases hinner : rest = []
    · subst hinner
      rw [EventStream.finish, if_neg hstale, if_pos rfl]
      refine ⟨h.terminated_lt, ?_, fun g hg => ?_, List.Pairwise.nil, h.once, h.entitled, h.inTurn,
        hcomplete⟩
      · exact (between_erased hle hok.stop_le hgap rfl).trans h.alive
      · cases hg
    · have hcopy := hcopy hinner hstale
      rw [EventStream.finish, if_neg hstale, if_neg hinner]
      refine ⟨h.terminated_lt, ?_, fun g hg => ?_, hnested.2, h.once, h.entitled, h.inTurn,
        hcomplete⟩
      · exact (between_copied hle hok.stop_le rfl hgap fun n hn hlive => (hcopy n hn hlive).1).trans
          h.alive
      · have hgok := h.frameOk g (List.mem_cons_of_mem f hg)
        obtain ⟨-, hinside, hhandler⟩ := hnested.1 g hg
        have hnext : g.next = g.first + 1 := by simp [Frame.next, hhandler]
        have htarget := target_copied (s := s) hle hok.stop_le rfl
        refine hgok.congr ?_ ?_ ?_ rfl rfl fun _ => Iff.rfl
        · exact (length_copied hle hok.stop_le rfl).symm ▸ hgok.stop_le
        · intro n hn hn'
          refine (htarget n).trans ?_
          split
          · by_contra hlive
            refine (hcopy _ (Nat.le_add_left _ _) hlive).2 g hg (.inl ?_)
            omega
          · exact hgok.gap n hn hn'
        · rw [hnext]
          refine between_congr fun n hn hn' => (htarget n).trans ?_
          split
          · rw [hgap n (by omega) (by omega)]
            by_contra hlive
            refine (hcopy _ (Nat.le_add_left _ _) hlive).2 g hg (.inr (.inr ?_))
            omega
          · rfl

/-- What holds of a stream between two steps. -/
def Ok (s : EventStream) : Prop := Inv s s.frames ∧ ∀ f ∈ s.frames, f.first < f.stop

theorem ok_empty : Ok {} := by
  refine ⟨⟨?_, rfl, ?_, List.Pairwise.nil, List.nodup_nil, ?_, ?_, ?_⟩, ?_⟩
  · intro c hc
    cases hc
  · intro f hf
    cases hf
  · intro i c hc
    cases hc
  · intro i due c c' hfire
    cases hfire
  · intro i due hfire
    cases hfire
  · intro f hf
    cases hf

theorem Ok.putNext (h : Inv s (f :: rest)) (hrun : ∀ g ∈ f :: rest, g.first < g.stop)
    (hf : f.inHandler = false) (hcopy : s.target f.first = none → ¬s.CopyUpsets f rest f.result) :
    Ok (s.putNext f rest) := by
  have hlt := hrun f List.mem_cons_self
  have hrest : ∀ g ∈ rest, g.first < g.stop := fun g hg => hrun g (List.mem_cons_of_mem f hg)
  rw [EventStream.putNext]
  cases hc : s.target f.first with
  | some c =>
    refine ⟨(h.deliver hf hlt hc).of_frames _, fun g hg => ?_⟩
    cases hg with
    | head => exact hlt
    | tail _ hg => exact hrest g hg
  | none =>
    have hskip := h.skip hf hlt hc
    by_cases hend : f.first + 1 = f.stop
    · rw [if_pos hend]
      refine ⟨hskip.finish hf hend fun hinner hstale i hi hlive => ?_, hrest⟩
      have hsame : ({ s with consumers := s.consumers.set f.first none } : EventStream).target i =
          s.target i := by
        have hi' : f.stop ≤ i := hi
        refine target_congr ?_ rfl
        rw [join_set_none, if_neg (by omega)]
      rw [hsame] at hlive
      rw [List.length_set]
      by_contra hbad
      rw [not_and_or, Nat.not_lt] at hbad
      refine hcopy hc ⟨hinner, hend, hstale, i, hi, hlive, hbad.imp_right fun hbad => ?_⟩
      push Not at hbad
      exact hbad
    · rw [if_neg hend]
      refine ⟨hskip.of_frames _, fun g hg => ?_⟩
      cases hg with
      | head => exact Nat.lt_of_le_of_ne hlt hend
      | tail _ hg => exact hrest g hg

theorem Ok.keep (h : Inv s (f :: rest)) (hrun : ∀ g ∈ f :: rest, g.first < g.stop)
    (hf : f.inHandler = true) (hmove : ¬s.MoveUpsets f rest)
    (hcopy : ¬s.CopyUpsets f rest (f.result + 1)) : Ok (s.keep f rest) := by
  have hlt := hrun f List.mem_cons_self
  have hrest : ∀ g ∈ rest, g.first < g.stop := fun g hg => hrun g (List.mem_cons_of_mem f hg)
  have hmoved := h.moved hf hlt hmove
  have hstate : (if f.result = f.first then s
      else { s with consumers := move s.consumers f.first f.result }) =
      { s with consumers := s.moved f } := by
    rw [moved]
    split
    · rfl
    · rfl
  rw [EventStream.keep, hstate]
  by_cases hend : f.first + 1 = f.stop
  · rw [if_pos hend]
    refine ⟨hmoved.finish rfl hend fun hinner hstale i hi hlive => ?_, hrest⟩
    have hi' : f.stop ≤ i := hi
    have hle := (h.frameOk f List.mem_cons_self).result_le
    rw [target_moved (h.frameOk f List.mem_cons_self) hlt, if_neg (by omega), if_neg (by omega)]
      at hlive
    rw [length_moved]
    by_contra hbad
    rw [not_and_or, Nat.not_lt] at hbad
    refine hcopy ⟨hinner, hend, hstale, i, hi, hlive, hbad.imp_right fun hbad => ?_⟩
    push Not at hbad
    exact hbad
  · rw [if_neg hend]
    refine ⟨hmoved.of_frames _, fun g hg => ?_⟩
    cases hg with
    | head => exact Nat.lt_of_le_of_ne hlt hend
    | tail _ hg => exact hrest g hg

theorem Ok.fire (h : Ok s) (huser : s.userRuns = true) : Ok s.fire := by
  refine ⟨h.1.fire huser, ?_⟩
  rw [EventStream.fire]
  by_cases hempty : s.consumers = []
  · rw [if_pos hempty]
    exact h.2
  · rw [if_neg hempty]
    intro f hf
    cases hf with
    | head => exact List.length_pos_of_ne_nil hempty
    | tail _ hf => exact h.2 f hf

theorem Ok.step (h : Ok s) (hstep : SparingStep s s') : Ok s' := by
  obtain ⟨a, hstep, hupset⟩ := hstep
  cases a with
  | subscribe =>
    rw [EventStream.step] at hstep
    split at hstep
    · cases hstep
      exact ⟨h.1.subscribe, h.2⟩
    · cases hstep
  | terminate c =>
    rw [EventStream.step] at hstep
    split at hstep
    · next hc =>
      cases hstep
      exact ⟨h.1.terminate hc.2, h.2⟩
    · cases hstep
  | fire =>
    rw [EventStream.step] at hstep
    split at hstep
    · next huser =>
      cases hstep
      exact h.fire huser
    · cases hstep
  | proceed =>
    rw [EventStream.step] at hstep
    cases hframes : s.frames with
    | nil =>
      rw [hframes] at hstep
      cases hstep
    | cons f rest =>
      rw [Ok, hframes] at h
      rw [hframes] at hstep
      cases hf : f.inHandler with
      | true => simp [hf] at hstep
      | false =>
        simp only [hf] at hstep
        cases hstep
        exact Ok.putNext h.1 h.2 hf fun hnone hcopy =>
          hupset ⟨f, rest, hframes, .inr ⟨rfl, hnone, hcopy⟩⟩
  | handled =>
    rw [EventStream.step] at hstep
    cases hframes : s.frames with
    | nil =>
      rw [hframes] at hstep
      cases hstep
    | cons f rest =>
      rw [Ok, hframes] at h
      rw [hframes] at hstep
      cases hf : f.inHandler with
      | false => simp [hf] at hstep
      | true =>
        simp only [hf] at hstep
        cases hstep
        refine Ok.keep h.1 h.2 hf (fun hmove => ?_) (fun hcopy => ?_)
        · exact hupset ⟨f, rest, hframes, .inl ⟨rfl, .inl hmove⟩⟩
        · exact hupset ⟨f, rest, hframes, .inl ⟨rfl, .inr hcopy⟩⟩

theorem count_of_target {c : Consumer} (l : List (Option Consumer)) {t : List Consumer}
    (hc : c ∉ t) : (l.filterMap fun slot => slot.filter fun c => c ∉ t).count c =
      l.count (some c) := by
  induction l with
  | nil => rfl
  | cons slot l ih =>
    cases slot with
    | none => simpa [Option.filter_none] using ih
    | some b =>
      by_cases hb : b ∈ t
      · have hbc : b ≠ c := fun h => hc (h ▸ hb)
        simpa [Option.filter_some, hb, hbc] using ih
      · simpa [Option.filter_some, hb, List.count_cons] using ih

theorem Ok.delivers (h : Ok s) : s.Delivers where
  once := h.1.once
  entitled := h.1.entitled
  inTurn := h.1.inTurn
  complete := h.1.complete
  stored := by
    intro c hc hct
    have hall := h.1.alive
    have hplaces : between s.target 0 s.consumers.length =
        s.consumers.filterMap fun slot => slot.filter fun c => c ∉ s.terminated :=
      between_length s.consumers
    rw [hplaces] at hall
    rw [← count_of_target s.consumers hct, hall]
    exact List.count_eq_one_of_mem (nodup_subscribers s) (mem_subscribers.mpr ⟨hc, hct⟩)

/-- As long as no nested fire upsets one around it, the stream delivers. -/
theorem sparing_delivers (h : Relation.ReflTransGen SparingStep {} s) : s.Delivers := by
  have hok : Ok s := by
    induction h with
    | refl => exact ok_empty
    | tail _ hstep ih => exact ih.step hstep
  exact hok.delivers

/-- Before a fire has met a place without a consumer it upsets no other. -/
theorem not_upsets_of_live {a : Action}
    (h : ∀ f ∈ s.frames.head?, f.result = f.first ∧ s.target f.first ≠ none) : ¬s.Upsets a := by
  rintro ⟨f, rest, hframes, hupsets⟩
  obtain ⟨hplace, hlive⟩ := h f (by rw [hframes]; rfl)
  rcases hupsets with ⟨-, ⟨hmoves, -⟩ | ⟨-, hend, hstale, -⟩⟩ | ⟨-, hnone, -⟩
  · exact hmoves hplace
  · exact hstale (hplace ▸ hend)
  · exact hlive hnone

/-- One consumer whose handler fires again. -/
theorem echo_delivers :
    ∃ s, run {} [.subscribe, .fire, .proceed, .fire, .proceed, .handled, .handled] = some s ∧
      s.Delivers := by
  refine ⟨_, rfl, sparing_delivers ?_⟩
  refine .head ⟨.subscribe, rfl, not_upsets_of_live (by decide)⟩ ?_
  refine .head ⟨.fire, rfl, not_upsets_of_live (by decide)⟩ ?_
  refine .head ⟨.proceed, rfl, not_upsets_of_live (by decide)⟩ ?_
  refine .head ⟨.fire, rfl, not_upsets_of_live (by decide)⟩ ?_
  refine .head ⟨.proceed, rfl, not_upsets_of_live (by decide)⟩ ?_
  refine .head ⟨.handled, rfl, not_upsets_of_live (by decide)⟩ ?_
  exact .single ⟨.handled, rfl, not_upsets_of_live (by decide)⟩

/-- Three consumers, of which the first has been terminated: the handler of the second one
fires again, and then the second one is in the vector no more. -/
theorem nested_fire_drops_consumer :
    ¬∀ (as : List Action) (s : EventStream), run {} as = some s → s.Delivers := by
  intro hall
  have hrun : run {} [.subscribe, .subscribe, .subscribe, .terminate 0, .fire, .proceed, .proceed,
      .fire, .proceed, .proceed, .handled, .proceed, .handled, .handled, .proceed] =
      some ⟨[some 2], [0], [], 3, [[1, 2], [1, 2]], [(1, 2), (1, 1), (0, 1)]⟩ := by decide
  have hdrop := (hall _ _ hrun).stored 1 (by decide) (by decide)
  exact absurd hdrop (by decide)

end EventStream

end TelegramClient.Rpl
