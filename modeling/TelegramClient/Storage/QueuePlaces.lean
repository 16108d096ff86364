import TelegramClient.Storage.FileLoaderQueue

/-! The structure of a queue of loaders: one list after any steps, as long as no pointer of a
loader outside of the queue is followed. -/

namespace TelegramClient.Storage.Queues

open Linked

/-! ## The memory -/

namespace Memory

variable (m : Memory)

def links : Links LoaderId := ⟨fun x => (m x).bind FileLoader.next, fun x => (m x).bind FileLoader.prev⟩

def inQueue (x : LoaderId) : Option Bool := (m x).map FileLoader.inQueue

variable {m} {x : LoaderId} {f : FileLoader}

theorem next_eq (h : m x = some f) : m.links.next x = f.next := by
  simp [links, h]

theorem prev_eq (h : m x = some f) : m.links.prev x = f.prev := by
  simp [links, h]

theorem isSome_inQueue : (m.inQueue x).isSome = (m x).isSome := by
  simp [inQueue]

theorem next_update (z : LoaderId) :
    (links (Function.update m x (some f))).next z = if z = x then f.next else m.links.next z := by
  by_cases hz : z = x <;> simp [links, hz]

theorem prev_update (z : LoaderId) :
    (links (Function.update m x (some f))).prev z = if z = x then f.prev else m.links.prev z := by
  by_cases hz : z = x <;> simp [links, hz]

theorem inQueue_update (z : LoaderId) :
    inQueue (Function.update m x (some f)) z = if z = x then some f.inQueue else m.inQueue z := by
  by_cases hz : z = x <;> simp [inQueue, hz]

end Memory

namespace FileLoaderQueue

variable {s : FileLoaderQueue} {l A B : List LoaderId} {x y : LoaderId} {f : FileLoader}

theorem modify_eq (h : s.loaders x = some f) (g : FileLoader → FileLoader) :
    s.modify x g = some { s with loaders := Function.update s.loaders x (some (g f)) } := by
  simp [modify, h]

/-- One pointer is written, or none when the loader it is in is null. -/
theorem modify?_prev {o : Option LoaderId} (ho : ∀ y ∈ o, (s.loaders y).isSome)
    (p : Option LoaderId) :
    ∃ m, s.modify? o (fun f => { f with prev := p }) = some { s with loaders := m } ∧
      m.inQueue = s.loaders.inQueue ∧ m.links.next = s.loaders.links.next ∧
      ∀ z, m.links.prev z = if o = some z then p else s.loaders.links.prev z := by
  cases o with
  | none => exact ⟨s.loaders, rfl, rfl, rfl, fun z => by simp⟩
  | some y =>
    obtain ⟨f, hf⟩ := Option.isSome_iff_exists.mp (ho y rfl)
    refine ⟨_, modify_eq hf _, ?_, ?_, ?_⟩
    · funext z
      rw [Memory.inQueue_update]
      split
      · next hz => simp [Memory.inQueue, hz, hf]
      · rfl
    · funext z
      rw [Memory.next_update]
      split
      · next hz => rw [hz, Memory.next_eq hf]
      · rfl
    · intro z
      rw [Memory.prev_update]
      simp [eq_comm]

theorem modify?_next {o : Option LoaderId} (ho : ∀ y ∈ o, (s.loaders y).isSome)
    (n : Option LoaderId) :
    ∃ m, s.modify? o (fun f => { f with next := n }) = some { s with loaders := m } ∧
      m.inQueue = s.loaders.inQueue ∧ m.links.prev = s.loaders.links.prev ∧
      ∀ z, m.links.next z = if o = some z then n else s.loaders.links.next z := by
  cases o with
  | none => exact ⟨s.loaders, rfl, rfl, rfl, fun z => by simp⟩
  | some y =>
    obtain ⟨f, hf⟩ := Option.isSome_iff_exists.mp (ho y rfl)
    refine ⟨_, modify_eq hf _, ?_, ?_, ?_⟩
    · funext z
      rw [Memory.inQueue_update]
      split
      · next hz => simp [Memory.inQueue, hz, hf]
      · rfl
    · funext z
      rw [Memory.prev_update]
      split
      · next hz => rw [hz, Memory.prev_eq hf]
      · rfl
    · intro z
      rw [Memory.next_update]
      simp [eq_comm]

/-! ## One list -/

/-- The loaders that are in the queue are those of one list, linked both ways. -/
structure Queued (s : FileLoaderQueue) (l : List LoaderId) : Prop where
  nodup : l.Nodup
  start : s.start = l.head?
  end_ : s.end_ = l.getLast?
  whole : Whole s.loaders.links l
  listed : ∀ x, s.loaders.inQueue x = some true ↔ x ∈ l
  apart : ∀ x, x ∉ l → s.loaders.links.prev x = none ∧ s.loaders.links.next x = none
  known : ∀ x, (s.loaders x).isSome → x < s.fresh

theorem queued_init : Queued {} [] where
  nodup := .nil
  start := rfl
  end_ := rfl
  whole := ⟨.nil, by simp, by simp⟩
  listed x := by simp [Memory.inQueue]
  apart x _ := by simp [Memory.links]
  known x h := by simp at h

namespace Queued

theorem isSome (h : Queued s l) (hx : x ∈ l) : (s.loaders x).isSome := by
  rw [← Memory.isSome_inQueue, (h.listed x).mpr hx]
  rfl

theorem inQueue_iff (h : Queued s l) (hf : s.loaders x = some f) : f.inQueue = true ↔ x ∈ l := by
  rw [← h.listed x]
  simp [Memory.inQueue, hf]

/-- Nothing that is linked changes. -/
theorem congr {s' : FileLoaderQueue} (h : Queued s l) (hstart : s'.start = s.start)
    (hend : s'.end_ = s.end_) (hlinks : s'.loaders.links = s.loaders.links)
    (hin : s'.loaders.inQueue = s.loaders.inQueue) (hfresh : s'.fresh = s.fresh) :
    Queued s' l where
  nodup := h.nodup
  start := hstart.trans h.start
  end_ := hend.trans h.end_
  whole := by rw [hlinks]; exact h.whole
  listed x := by rw [hin]; exact h.listed x
  apart x hx := by rw [hlinks]; exact h.apart x hx
  known x hx := by
    rw [hfresh]
    rw [← Memory.isSome_inQueue, hin, Memory.isSome_inQueue] at hx
    exact h.known x hx

/-- A loader changes in what is not linked. -/
theorem modify (h : Queued s l) (hf : s.loaders x = some f) {g : FileLoader → FileLoader}
    (hprev : (g f).prev = f.prev) (hnext : (g f).next = f.next)
    (hin : (g f).inQueue = f.inQueue) :
    ∃ s', s.modify x g = some s' ∧ Queued s' l ∧ s'.loaders x = some (g f) := by
  refine ⟨_, modify_eq hf g, ?_, by simp⟩
  refine h.congr rfl rfl ?_ ?_ rfl
  · have hlinks : ∀ z, (Memory.links (Function.update s.loaders x (some (g f)))).next z =
        s.loaders.links.next z ∧ (Memory.links (Function.update s.loaders x (some (g f)))).prev z =
        s.loaders.links.prev z := by
      intro z
      rw [Memory.next_update, Memory.prev_update]
      by_cases hz : z = x
      · rw [if_pos hz, if_pos hz, hz, Memory.next_eq hf, Memory.prev_eq hf]
        exact ⟨hnext, hprev⟩
      · rw [if_neg hz, if_neg hz]
        exact ⟨rfl, rfl⟩
    exact congrArg₂ Links.mk (funext fun z => (hlinks z).1) (funext fun z => (hlinks z).2)
  · funext z
    rw [Memory.inQueue_update]
    split
    · next hz => simp [Memory.inQueue, hz, hf, hin]
    · rfl

theorem length_lt (h : Queued s l) : l.length < s.steps := by
  have hsub : l ⊆ List.range s.fresh := fun x hx => List.mem_range.mpr (h.known x (h.isSome hx))
  have hle := (h.nodup.subperm hsub).length_le
  rw [List.length_range] at hle
  rw [steps]
  omega

end Queued

/-! ## Taking a loader out and putting it in -/

/-- A queue without a loader, wherever its ends were. -/
theorem head?_takeOut (hnodup : (A ++ x :: B).Nodup) :
    (if (A ++ x :: B).head? = some x then B.head? else (A ++ x :: B).head?) = (A ++ B).head? := by
  cases A with
  | nil => simp
  | cons a A =>
    have hne : a ≠ x := by grind
    simp [hne]

theorem getLast?_takeOut (hnodup : (A ++ x :: B).Nodup) :
    (if (A ++ x :: B).getLast? = some x then A.getLast? else (A ++ x :: B).getLast?) =
      (A ++ B).getLast? := by
  cases B with
  | nil => simp
  | cons b B =>
    have hne := @getLast?_ne _ (b :: B) x (by grind)
    rw [List.getLast?_append_cons, List.getLast?_cons_cons, if_neg hne, List.getLast?_append_cons]

theorem removeFromQueue_listed (h : Queued s (A ++ x :: B)) :
    ∃ s', s.removeFromQueue x = some s' ∧ Queued s' (A ++ B) ∧ (s'.loaders x).isSome := by
  obtain ⟨f, hf⟩ := Option.isSome_iff_exists.mp (h.isSome (x := x) (by simp))
  have hin : f.inQueue = true := (h.inQueue_iff hf).mpr (by simp)
  have hprev : f.prev = A.getLast? := by rw [← Memory.prev_eq hf, h.whole.prev_append]
  have hnext : f.next = B.head? := by rw [← Memory.next_eq hf, h.whole.next_append]
  have hnodup := h.nodup
  have hxA : x ∉ A := by grind
  have hxB : x ∉ B := by grind
  obtain ⟨m₁, hset₁, hin₁, hnext₁, hprev₁⟩ := modify?_prev (s := s) (o := B.head?)
    (fun y hy => h.isSome (by simp [List.mem_of_mem_head? hy])) A.getLast?
  obtain ⟨m₂, hset₂, hin₂, hprev₂, hnext₂⟩ := modify?_next (s := { s with loaders := m₁ })
    (o := A.getLast?) (fun y hy => by
      rw [← Memory.isSome_inQueue, hin₁, Memory.isSome_inQueue]
      exact h.isSome (by simp [List.mem_of_getLast? hy])) B.head?
  have hsome : (m₂ x).isSome := by
    rw [← Memory.isSome_inQueue, hin₂, hin₁, Memory.isSome_inQueue, hf]
    rfl
  obtain ⟨f₂, hf₂⟩ := Option.isSome_iff_exists.mp hsome
  have hhead := head?_takeOut hnodup
  have hlast := getLast?_takeOut hnodup
  rw [← h.start] at hhead
  rw [← h.end_] at hlast
  refine ⟨{ s with
    loaders := Function.update m₂ x (some { f₂ with next := none, prev := none, inQueue := false })
    end_ := if s.end_ = some x then A.getLast? else s.end_
    start := if s.start = some x then B.head? else s.start }, ?_, ?_, by simp⟩
  · rw [removeFromQueue, hf]
    simp only [Option.bind_eq_bind, Option.bind_some, hin, Bool.not_true, Bool.false_eq_true,
      if_false, hprev, hnext, hset₁, hset₂]
    exact modify_eq hf₂ _
  · constructor
    · exact hnodup.sublist (by simp)
    · exact hhead
    · exact hlast
    · refine h.whole.takeOut hnodup ?_ ?_
      · intro z hz
        rw [Memory.prev_update, if_neg hz, hprev₂, hprev₁]
      · intro z hz
        rw [Memory.next_update, if_neg hz, hnext₂, hnext₁]
    · intro z
      rw [Memory.inQueue_update]
      split
      · next hz => simp [hz, hxA, hxB]
      · next hz =>
        rw [hin₂, hin₁, h.listed z]
        simp [hz]
    · intro z hz
      rw [Memory.prev_update, Memory.next_update]
      split
      · exact ⟨rfl, rfl⟩
      · next hne =>
        rw [List.mem_append, not_or] at hz
        rw [hprev₂, hprev₁, hnext₂, if_neg (head?_ne hz.2), if_neg (getLast?_ne hz.1), hnext₁]
        exact h.apart z (by simp [hz.1, hz.2, hne])
    · intro z hz
      rw [← Memory.isSome_inQueue, Memory.inQueue_update] at hz
      split at hz
      · next heq => exact h.known z (by rw [heq, hf]; rfl)
      · rw [hin₂, hin₁, Memory.isSome_inQueue] at hz
        exact h.known z hz

theorem removeFromQueue_apart (h : Queued s l) (hf : s.loaders x = some f) (hx : x ∉ l) :
    s.removeFromQueue x = some s := by
  have hin : f.inQueue = false := by
    rw [← Bool.not_eq_true, h.inQueue_iff hf]
    exact hx
  simp [removeFromQueue, hf, hin]

theorem exists_removeFromQueue (h : Queued s l) (hx : (s.loaders x).isSome) :
    ∃ s', s.removeFromQueue x = some s' ∧ Queued s' (l.erase x) ∧ (s'.loaders x).isSome := by
  obtain ⟨f, hf⟩ := Option.isSome_iff_exists.mp hx
  by_cases hmem : x ∈ l
  · obtain ⟨A, B, rfl⟩ := List.append_of_mem hmem
    have hnodup := h.nodup
    have hxA : x ∉ A := by grind
    rw [List.erase_append_right _ hxA, List.erase_cons_head]
    exact removeFromQueue_listed h
  · rw [List.erase_of_not_mem hmem]
    exact ⟨s, removeFromQueue_apart h hf hmem, h, hx⟩

/-- All that a loader and its neighbours say once it is put in. -/
theorem Queued.putIn {s' : FileLoaderQueue} (h : Queued s (A ++ B)) (hx : (s.loaders x).isSome)
    (hmem : x ∉ A ++ B) (hstart : s'.start = (A ++ x :: B).head?)
    (hend : s'.end_ = (A ++ x :: B).getLast?) (hfresh : s'.fresh = s.fresh)
    (hprev : ∀ z, s'.loaders.links.prev z =
      if z = x then A.getLast? else if B.head? = some z then some x else s.loaders.links.prev z)
    (hnext : ∀ z, s'.loaders.links.next z =
      if z = x then B.head? else if A.getLast? = some z then some x else s.loaders.links.next z)
    (hin : ∀ z, s'.loaders.inQueue z = if z = x then some true else s.loaders.inQueue z) :
    Queued s' (A ++ x :: B) := by
  have hnodup : (A ++ x :: B).Nodup := List.nodup_middle.mpr (List.nodup_cons.mpr ⟨hmem, h.nodup⟩)
  constructor
  · exact hnodup
  · exact hstart
  · exact hend
  · exact h.whole.putIn hnodup hprev hnext
  · intro z
    rw [hin]
    split
    · next hz => simp [hz]
    · next hz =>
      rw [h.listed z]
      simp [hz]
  · intro z hz
    simp only [List.mem_append, List.mem_cons, not_or] at hz
    rw [hprev, hnext, if_neg hz.2.1, if_neg hz.2.1, if_neg (head?_ne hz.2.2),
      if_neg (getLast?_ne hz.1)]
    exact h.apart z (by simp [hz.1, hz.2.2])
  · intro z hz
    rw [hfresh]
    rw [← Memory.isSome_inQueue, hin] at hz
    split at hz
    · next heq => exact h.known z (heq ▸ hx)
    · rw [Memory.isSome_inQueue] at hz
      exact h.known z hz

theorem insert_before (h : Queued s (A ++ y :: B)) (hf : s.loaders x = some f)
    (hmem : x ∉ A ++ y :: B) (after : Option LoaderId) :
    ∃ s', s.insert x (some y) after = some s' ∧ Queued s' (A ++ x :: y :: B) := by
  have hyx : y ≠ x := by grind
  obtain ⟨b, hb⟩ := Option.isSome_iff_exists.mp (h.isSome (x := y) (by simp))
  have hbprev : b.prev = A.getLast? := by rw [← Memory.prev_eq hb, h.whole.prev_append]
  have hapart := h.apart x hmem
  rw [Memory.prev_eq hf, Memory.next_eq hf] at hapart
  obtain ⟨first, hfirst⟩ : ∃ first, s.start = some first := by
    rw [h.start]
    cases A <;> simp
  let m : Memory := Function.update (Function.update s.loaders x
    (some { f with inQueue := true, prev := A.getLast?, next := some y })) y
    (some { b with prev := some x })
  have hlive : ∀ z ∈ A.getLast?, (m z).isSome := by
    intro z hz
    have hzA : z ∈ A := List.mem_of_getLast? hz
    have hzy : z ≠ y := by
      have hnodup := h.nodup
      grind
    have hzx : z ≠ x := by grind
    simp only [m, Function.update_of_ne hzy, Function.update_of_ne hzx]
    exact h.isSome (by simp [hzA])
  obtain ⟨m₁, hset, hin, hprev, hnext⟩ := modify?_next (s := { s with loaders := m }) hlive (some x)
  have hlinkprev : ∀ z, m₁.links.prev z = if z = x then A.getLast? else
      if (y :: B).head? = some z then some x else s.loaders.links.prev z := by
    intro z
    rw [hprev, Memory.prev_update, Memory.prev_update, List.head?_cons]
    by_cases hzy : z = y
    · rw [if_pos hzy, hzy, if_neg hyx, if_pos rfl]
    · have hyz : some y ≠ some z := fun heq => hzy (Option.some.inj heq).symm
      rw [if_neg hzy, if_neg hyz]
  have hlinknext : ∀ z, m₁.links.next z = if z = x then (y :: B).head? else
      if A.getLast? = some z then some x else s.loaders.links.next z := by
    intro z
    rw [hnext, Memory.next_update, Memory.next_update, List.head?_cons]
    by_cases hzx : z = x
    · rw [hzx, if_neg (getLast?_ne (by grind)), if_neg (Ne.symm hyx), if_pos rfl, if_pos rfl]
    · rw [if_neg hzx, if_neg hzx]
      split
      · rfl
      · split
        · next hzy => rw [hzy, Memory.next_eq hb]
        · rfl
  have hinqueue : ∀ z, m₁.inQueue z = if z = x then some true else s.loaders.inQueue z := by
    intro z
    rw [hin, Memory.inQueue_update, Memory.inQueue_update]
    by_cases hzy : z = y
    · rw [if_pos hzy, hzy, if_neg hyx]
      simp [Memory.inQueue, hb]
    · rw [if_neg hzy]
  have hfirstprev : ∃ l, m₁ first = some l ∧ l.prev.or (some first) = (A ++ x :: y :: B).head? := by
    have hsome : (m₁ first).isSome := by
      rw [← Memory.isSome_inQueue, hinqueue]
      split
      · rfl
      · rw [Memory.isSome_inQueue]
        exact h.isSome (List.mem_of_mem_head? (h.start.symm.trans hfirst))
    obtain ⟨l, hl⟩ := Option.isSome_iff_exists.mp hsome
    refine ⟨l, hl, ?_⟩
    rw [← Memory.prev_eq hl, hlinkprev]
    rw [h.start] at hfirst
    cases A with
    | nil =>
      obtain rfl : y = first := by simpa using hfirst
      simp [hyx]
    | cons a A =>
      obtain rfl : a = first := by simpa using hfirst
      have hax : a ≠ x := by grind
      have hya : some y ≠ some a := by
        have hnodup := h.nodup
        grind
      rw [if_neg hax, List.head?_cons, if_neg hya, h.whole.first a rfl]
      rfl
  obtain ⟨lfirst, hlfirst, hhead⟩ := hfirstprev
  refine ⟨{ s with loaders := m₁, start := (A ++ x :: y :: B).head? }, ?_, ?_⟩
  · rw [insert, modify_eq hf]
    have hne : s.start ≠ none := by simp [hfirst]
    simp only [Option.bind_eq_bind, Option.bind_some, if_neg hne]
    rw [insertBefore]
    simp only [Function.update_self, Option.bind_eq_bind, Option.bind_some, hapart.2, reduceCtorEq,
      if_false, Function.update_of_ne hyx, hb]
    rw [modify_eq (Function.update_self ..)]
    simp only [Option.bind_some, Function.update_idem, hbprev]
    rw [modify_eq ((Function.update_of_ne hyx _ _).trans hb)]
    simp only [Option.bind_some]
    rw [hset]
    simp only [Option.bind_some, hfirst, hlfirst, Option.pure_def, hhead]
  · refine h.putIn (by rw [hf]; rfl) hmem rfl ?_ rfl hlinkprev hlinknext hinqueue
    rw [h.end_, List.getLast?_append_cons, List.getLast?_append_cons, List.getLast?_cons_cons]

theorem insert_after (h : Queued s (A ++ [y] ++ B)) (hf : s.loaders x = some f)
    (hmem : x ∉ A ++ [y] ++ B) :
    ∃ s', s.insert x none (some y) = some s' ∧ Queued s' (A ++ [y] ++ x :: B) := by
  have hyx : y ≠ x := by grind
  obtain ⟨a, ha⟩ := Option.isSome_iff_exists.mp (h.isSome (x := y) (by simp))
  have hsplit : A ++ [y] ++ B = A ++ y :: B := by simp
  have hanext : a.next = B.head? := by
    have hwhole := h.whole
    rw [hsplit] at hwhole
    rw [← Memory.next_eq ha, hwhole.next_append]
  have hlast : (A ++ [y]).getLast? = some y := by simp
  have hapart := h.apart x hmem
  rw [Memory.prev_eq hf, Memory.next_eq hf] at hapart
  obtain ⟨last, hend⟩ : ∃ last, s.end_ = some last := by
    rw [h.end_, hsplit, List.getLast?_append_cons]
    exact ⟨_, List.getLast?_eq_some_getLast (by simp)⟩
  have hne : s.start ≠ none := by
    rw [h.start]
    cases A <;> simp
  let m : Memory := Function.update (Function.update s.loaders x
    (some { f with inQueue := true, next := B.head?, prev := some y })) y
    (some { a with next := some x })
  have hlive : ∀ z ∈ B.head?, (m z).isSome := by
    intro z hz
    have hzB : z ∈ B := List.mem_of_mem_head? hz
    have hzy : z ≠ y := by
      have hnodup := h.nodup
      grind
    have hzx : z ≠ x := by grind
    simp only [m, Function.update_of_ne hzy, Function.update_of_ne hzx]
    exact h.isSome (by simp [hzB])
  obtain ⟨m₁, hset, hin, hnext, hprev⟩ := modify?_prev (s := { s with loaders := m }) hlive (some x)
  have hlinkprev : ∀ z, m₁.links.prev z = if z = x then (A ++ [y]).getLast? else
      if B.head? = some z then some x else s.loaders.links.prev z := by
    intro z
    rw [hprev, Memory.prev_update, Memory.prev_update, hlast]
    by_cases hzx : z = x
    · rw [hzx, if_neg (head?_ne (by grind)), if_neg (Ne.symm hyx), if_pos rfl, if_pos rfl]
    · rw [if_neg hzx, if_neg hzx]
      split
      · rfl
      · split
        · next hzy => rw [hzy, Memory.prev_eq ha]
        · rfl
  have hlinknext : ∀ z, m₁.links.next z = if z = x then B.head? else
      if (A ++ [y]).getLast? = some z then some x else s.loaders.links.next z := by
    intro z
    rw [hnext, Memory.next_update, Memory.next_update, hlast]
    by_cases hzy : z = y
    · rw [if_pos hzy, hzy, if_neg hyx, if_pos rfl]
    · have hyz : some y ≠ some z := fun heq => hzy (Option.some.inj heq).symm
      rw [if_neg hzy, if_neg hyz]
  have hinqueue : ∀ z, m₁.inQueue z = if z = x then some true else s.loaders.inQueue z := by
    intro z
    rw [hin, Memory.inQueue_update, Memory.inQueue_update]
    by_cases hzy : z = y
    · rw [if_pos hzy, hzy, if_neg hyx]
      simp [Memory.inQueue, ha]
    · rw [if_neg hzy]
  have hlastnext : ∃ l, m₁ last = some l ∧
      l.next.or (some last) = (A ++ [y] ++ x :: B).getLast? := by
    have hsome : (m₁ last).isSome := by
      rw [← Memory.isSome_inQueue, hinqueue]
      split
      · rfl
      · rw [Memory.isSome_inQueue]
        exact h.isSome (List.mem_of_getLast? (h.end_.symm.trans hend))
    obtain ⟨l, hl⟩ := Option.isSome_iff_exists.mp hsome
    refine ⟨l, hl, ?_⟩
    rw [← Memory.next_eq hl, hlinknext, hlast]
    rw [h.end_] at hend
    cases B with
    | nil =>
      obtain rfl : y = last := by simpa using hend
      simp [hyx]
    | cons b B =>
      rw [List.getLast?_append_cons] at hend
      have hmemB : last ∈ b :: B := List.mem_of_getLast? hend
      have hnodup := h.nodup
      have hlx : last ≠ x := by grind
      have hyl : some y ≠ some last := by grind
      have hnone := h.whole.last last (by rw [List.getLast?_append_cons]; exact hend)
      rw [if_neg hlx, if_neg hyl, hnone, List.getLast?_append_cons, List.getLast?_cons_cons, hend]
      rfl
  obtain ⟨llast, hllast, hlastof⟩ := hlastnext
  refine ⟨{ s with loaders := m₁, end_ := (A ++ [y] ++ x :: B).getLast? }, ?_, ?_⟩
  · rw [insert, modify_eq hf]
    simp only [Option.bind_eq_bind, Option.bind_some, if_neg hne]
    rw [insertAfter]
    simp only [Function.update_self, Option.bind_eq_bind, Option.bind_some, hapart.1, reduceCtorEq,
      if_false, Function.update_of_ne hyx, ha]
    rw [modify_eq (Function.update_self ..)]
    simp only [Option.bind_some, Function.update_idem, hanext]
    rw [modify_eq ((Function.update_of_ne hyx _ _).trans ha)]
    simp only [Option.bind_some]
    rw [hset]
    simp only [Option.bind_some, hend, hllast, Option.pure_def, hlastof]
  · refine h.putIn (by rw [hf]; rfl) hmem ?_ rfl rfl hlinkprev hlinknext hinqueue
    rw [h.start]
    cases A <;> simp

theorem insert_alone (h : Queued s []) (hf : s.loaders x = some f)
    (before after : Option LoaderId) :
    ∃ s', s.insert x before after = some s' ∧ Queued s' [x] := by
  have hnone : s.start = none := h.start
  have hapart := h.apart x (by simp)
  rw [Memory.prev_eq hf, Memory.next_eq hf] at hapart
  refine ⟨{ s with
    loaders := Function.update s.loaders x (some { f with inQueue := true })
    start := some x
    end_ := some x }, ?_, ?_⟩
  · rw [insert, modify_eq hf]
    simp [hnone]
  · refine Queued.putIn (A := []) (B := []) h (by rw [hf]; rfl) (by simp) rfl rfl rfl ?_ ?_ ?_
    · intro z
      rw [Memory.prev_update]
      simp [hapart.1]
    · intro z
      rw [Memory.next_update]
      simp [hapart.2]
    · intro z
      rw [Memory.inQueue_update]

end FileLoaderQueue

end TelegramClient.Storage.Queues
