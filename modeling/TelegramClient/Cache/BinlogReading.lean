import Mathlib
import TelegramClient.Cache.BinlogReader

/-! What the reading loops of the database and of the compactor make of a whole
binlog, for every block size. -/

namespace TelegramClient.Cache

variable {σ : Type} {F : Framing UInt8} {B : Nat} {handle : σ → List UInt8 → Run (σ × Bool)}
  {w w' : BinlogWrapper} {s : σ} {unread : List UInt8}

theorem feed_split {s' : σ} {fs refused : List (List UInt8)}
    (h : feed handle s fs = .ok (s', refused)) : ∃ accepted, accepted ++ refused = fs := by
  induction fs generalizing s with
  | nil =>
    simp only [feed, Except.ok.injEq, Prod.mk.injEq] at h
    exact ⟨[], by simp [← h.2]⟩
  | cons f fs ih =>
    cases hh : handle s f with
    | error stop => simp [feed, hh] at h
    | ok p =>
      obtain ⟨s₁, good⟩ := p
      cases good with
      | true =>
        obtain ⟨accepted, ha⟩ := ih (by simpa [feed, hh] using h)
        exact ⟨f :: accepted, by simp [ha]⟩
      | false =>
        simp only [feed, hh, Except.ok.injEq, Prod.mk.injEq] at h
        exact ⟨[], by simp [← h.2]⟩

theorem Fits.next (h : Fits F B (w.part ++ unread)) :
    Fits F B ((w.next F B unread).part ++ unread.drop (w.amount B unread)) := by
  obtain ⟨hf, hr⟩ := h
  rw [frames_block F w B unread] at hf
  rw [rest_block F w B unread] at hr
  exact ⟨fun f hm => hf f (List.mem_append_right _ hm), hr⟩

/-- The part of a record that is still to be completed leaves room in the block. -/
theorem BinlogWrapper.Pending.part_lt (h : w.Pending F unread) (hhead : F.header ≤ 16)
    (hB : 0 < B) (hfit : Fits F B (w.part ++ unread)) (hu : unread ≠ []) : w.part.length < B := by
  have hpos := List.length_pos_iff.mpr hu
  by_cases hp : w.part = []
  · simpa [hp] using hB
  have hlen := List.length_pos_iff.mpr hp
  have hmod := h.part_mod
  have hk : F.measure w.part ≠ .unknown := F.ne_unknown _ (by omega)
  cases hm : F.measure w.part with
  | unknown => exact absurd hm hk
  | invalid => exact absurd hm h.valid
  | known n =>
    have hn := h.stuck n hm
    have hall : F.measure (w.part ++ unread) = .known n := by rw [F.stable _ _ hk, hm]
    by_cases hle : n ≤ (w.part ++ unread).length
    · have hb := hfit.1 ((w.part ++ unread).take n) (by rw [Framing.frames_of_known hall hle]; simp)
      rw [List.length_take, Nat.min_eq_left hle] at hb
      omega
    · have hs : F.Stuck (w.part ++ unread) := by
        intro k hkn
        rw [hall] at hkn
        cases hkn
        omega
      have hb := hfit.2
      rw [Framing.rest_of_stuck hs, hall, List.length_append] at hb
      have := hb (by simp)
      omega

theorem BinlogWrapper.amount_pos (hB : w.part.length < B) (hu : unread ≠ []) :
    0 < w.amount B unread := by
  have hpos := List.length_pos_iff.mpr hu
  simp only [amount]
  omega

theorem BinlogWrapper.Done.of_next {refused : List (List UInt8)}
    (h : (w.next F B unread).Done F ((w.next F B unread).part ++ unread.drop (w.amount B unread))
      refused w') : w.Done F (w.part ++ unread) refused w' := by
  obtain ⟨ht, hb, hf, hfin, hp⟩ := h
  rw [← rest_block F w B unread] at hb hf hfin hp
  exact ⟨ht, hb, hf, hfin, hp⟩

theorem BinlogWrapper.Pending.done_nil (h : w.Pending F []) :
    w.Done F (w.part ++ []) [] (w.finish 0) := by
  have hrest : F.rest w.part = w.part := Framing.rest_of_stuck h.stuck
  rw [List.append_nil]
  have hl := h.length_unread
  have ho := h.offset_le
  simp only [List.length_nil] at hl
  constructor
  case till => rfl
  case binlog =>
    rw [finish_binlog (by simpa using h.part_le) h.offset_le_size, hrest]
    apply congrArg (ByteFile.mk w.binlog.data)
    simp only [List.flatten_nil, List.length_nil]
    omega
  case failed => simp [hrest, h.valid]
  case finished =>
    intro hfin
    exact absurd (h.finished.symm.trans hfin) (by simp)
  case part => simp [hrest]

section Loop

variable (hF : ∀ f, F.IsFrame f → f.length % 16 = 0) (hhead : F.header ≤ 16) (hBm : B % 16 = 0)
  (hB : 0 < B)

include hF hhead hBm hB

/-- The loop of `readBinlog` hands over the complete records of the file in
order, up to the first one refused, however the blocks cut them. -/
theorem readBinlogHelper_eq (h : w.Pending F unread) (hfit : Fits F B (w.part ++ unread))
    (fuel : Nat) (hfuel : unread.length + 2 ≤ fuel) :
    (∃ stop, feed handle s (F.frames (w.part ++ unread)) = .error stop ∧
      readBinlogHelper F B handle fuel w s = .error stop) ∨
    ∃ s' refused w', feed handle s (F.frames (w.part ++ unread)) = .ok (s', refused) ∧
      readBinlogHelper F B handle fuel w s = .ok (w', s') ∧
      w.Done F (w.part ++ unread) refused w' := by
  induction hl : unread.length using Nat.strong_induction_on generalizing w s unread fuel with
  | _ l ih =>
    obtain ⟨fuel, rfl⟩ : ∃ k, fuel = k + 2 := ⟨fuel - 2, by omega⟩
    by_cases hu : unread = []
    · subst hu
      apply Or.inr
      have hnone : F.frames (w.part ++ []) = [] := by
        rw [List.append_nil, Framing.frames_of_stuck h.stuck]
      refine ⟨s, [], _, ?_, ?_, h.done_nil⟩
      · rw [hnone, feed]
      · rw [readBinlogHelper, readTillEnd_nil h.toReady]
    have hpB := h.part_lt hhead hB hfit hu
    rw [frames_block F w B unread, feed_append, readBinlogHelper,
      readTillEnd_more h.toReady hu hBm hpB]
    cases hfeed : feed handle s (F.frames (w.block B unread).part) with
    | error stop => exact .inl ⟨stop, rfl, rfl⟩
    | ok p =>
      obtain ⟨s₁, refused⟩ := p
      cases refused with
      | cons f fs =>
        obtain ⟨accepted, ha⟩ := feed_split hfeed
        obtain ⟨htrue, hdone⟩ := afterRecords_refused h ha
        apply Or.inr
        refine ⟨s₁, _, (afterRecords F (w.block B unread) (f :: fs)).2, rfl, ?_, hdone⟩
        simp only [htrue]
      | nil =>
        by_cases hv : F.measure (F.rest (w.block B unread).part) = .invalid
        · obtain ⟨hframes, -, hfalse, hfin, hdone⟩ := afterRecords_invalid h hv
          have hnone : F.frames ((w.next F B unread).part ++ unread.drop (w.amount B unread)) = [] := by
            have := frames_block F w B unread
            rw [hframes] at this
            simpa using this
          apply Or.inr
          refine ⟨s₁, [], (afterRecords F (w.block B unread) []).2, ?_, ?_, hdone⟩
          · simp [hnone, feed]
          · simp [hfalse, readBinlogHelper, readTillEnd, BinlogWrapper.readPart, hfin]
        · have hnext := h.next hF hBm hv
          have hpos := BinlogWrapper.amount_pos hpB hu
          have hulen := List.length_pos_iff.mpr hu
          have hlt : (unread.drop (w.amount B unread)).length < l := by
            rw [List.length_drop]
            omega
          have hi := ih _ hlt hnext hfit.next (s := s₁) (fuel + 1) (by omega) rfl
          simp only [afterRecords_next hv]
          rcases hi with ⟨stop, hs, hr⟩ | ⟨s', refused, w', hs, hr, hdone⟩
          · exact .inl ⟨stop, hs, hr⟩
          · exact .inr ⟨s', refused, w', hs, hr, hdone.of_next⟩

omit hhead hB in
/-- Otherwise the reader runs into its own assertion, once a record has filled
the block and is still not complete. -/
theorem readBinlogHelper_assertion (h : w.Pending F unread) (hpB : w.part.length ≤ B)
    (hfit : ¬Fits F B (w.part ++ unread))
    (hgood : ∀ s f, F.IsFrame f → ∃ s', handle s f = .ok (s', true)) (fuel : Nat) :
    ∃ stop, readBinlogHelper F B handle fuel w s = .error stop := by
  induction fuel generalizing w s unread with
  | zero => exact ⟨_, rfl⟩
  | succ fuel ih =>
    by_cases hu : unread = []
    · subst hu
      exfalso
      apply hfit
      rw [List.append_nil, Fits, Framing.frames_of_stuck h.stuck, Framing.rest_of_stuck h.stuck]
      exact ⟨by simp, fun _ => hpB⟩
    by_cases hfull : B ≤ w.part.length
    · exact ⟨.assertion, by rw [readBinlogHelper, readTillEnd, h.readPart_full hu hfull]⟩
    have hlt := Nat.lt_of_not_le hfull
    have hall : ∀ fs : List (List UInt8), (∀ f ∈ fs, F.IsFrame f) → ∀ s : σ,
        ∃ s', feed handle s fs = .ok (s', []) := by
      intro fs
      induction fs with
      | nil => exact fun _ s => ⟨s, rfl⟩
      | cons f fs ihf =>
        intro hfs s
        obtain ⟨s₁, hs₁⟩ := hgood s f (hfs f (by simp))
        obtain ⟨s₂, hs₂⟩ := ihf (fun g hg => hfs g (by simp [hg])) s₁
        exact ⟨s₂, by simp [feed, hs₁, hs₂]⟩
    obtain ⟨s₁, hfeed⟩ := hall _ (fun f hf => Framing.isFrame_of_mem_frames hf) s
    have hblock : (w.block B unread).part.length ≤ B := by
      have htake := List.length_take_le (w.amount B unread) unread
      simp only [BinlogWrapper.block, List.length_append]
      have hamount : w.amount B unread ≤ B - w.part.length := Nat.min_le_right _ _
      rw [List.length_take]
      omega
    have hflat := congrArg List.length
      (Framing.flatten_frames_append_rest (F := F) (w.block B unread).part)
    rw [List.length_append] at hflat
    have hsmall : ∀ f ∈ F.frames (w.block B unread).part, f.length ≤ B := by
      intro f hf
      have := (List.sublist_flatten_of_mem hf).length_le
      omega
    rw [readBinlogHelper, readTillEnd_more h.toReady hu hBm hlt, hfeed]
    by_cases hv : F.measure (F.rest (w.block B unread).part) = .invalid
    · obtain ⟨hframes, hi, -⟩ := afterRecords_invalid h hv
      exfalso
      apply hfit
      exact ⟨by rwa [hframes], fun hne => absurd hi hne⟩
    · simp only [afterRecords_next hv]
      apply ih (h.next hF hBm hv)
      · show (F.rest (w.block B unread).part).length ≤ B
        omega
      · intro hnext
        apply hfit
        rw [Fits, frames_block F w B unread, rest_block F w B unread]
        refine ⟨?_, hnext.2⟩
        intro f hf
        exact (List.mem_append.mp hf).elim (hsmall f) (hnext.1 f)

end Loop

end TelegramClient.Cache
