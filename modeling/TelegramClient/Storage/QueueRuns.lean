import TelegramClient.Storage.QueuePlaces

/-! The queue of loaders in any run of starts, pauses, destructions and new priorities. -/

namespace TelegramClient.Storage.Queues

open Linked

namespace FileLoaderQueue

variable {s : FileLoaderQueue} {l A B : List LoaderId} {x y : LoaderId} {f : FileLoader}

/-! ## Walks -/

/-- A walk to the end of the queue stops at a loader of it. -/
theorem exists_walk_next (h : Queued s (A ++ y :: B)) (p : FileLoader → Bool) {fuel : Nat}
    (hfuel : B.length < fuel) :
    ∃ z ∈ y :: B, s.walk FileLoader.next p fuel y = some z := by
  induction B generalizing A y fuel with
  | nil =>
    obtain ⟨f, hf⟩ := Option.isSome_iff_exists.mp (h.isSome (x := y) (by simp))
    have hnext : f.next = none := by rw [← Memory.next_eq hf, h.whole.next_append]; rfl
    obtain ⟨fuel, rfl⟩ := Nat.exists_eq_add_one.mpr hfuel
    exact ⟨y, by simp, by simp [walk, hf, hnext]⟩
  | cons b B ih =>
    obtain ⟨f, hf⟩ := Option.isSome_iff_exists.mp (h.isSome (x := y) (by simp))
    obtain ⟨g, hg⟩ := Option.isSome_iff_exists.mp (h.isSome (x := b) (by simp))
    have hnext : f.next = some b := by rw [← Memory.next_eq hf, h.whole.next_append]; rfl
    obtain ⟨fuel, rfl⟩ := Nat.exists_eq_add_one.mpr (Nat.zero_lt_of_lt hfuel)
    by_cases hp : p g
    · obtain ⟨z, hz, hwalk⟩ := ih (A := A ++ [y]) (by simpa using h) (Nat.lt_of_succ_lt_succ hfuel)
      exact ⟨z, List.mem_cons_of_mem y hz, by simp [walk, hf, hnext, hg, hp, hwalk]⟩
    · exact ⟨y, by simp, by simp [walk, hf, hnext, hg, hp]⟩

theorem exists_walk_prev (h : Queued s (A ++ y :: B)) (p : FileLoader → Bool) {fuel : Nat}
    (hfuel : A.length < fuel) :
    ∃ z ∈ A ++ [y], s.walk FileLoader.prev p fuel y = some z := by
  induction A using List.reverseRecOn generalizing y B fuel with
  | nil =>
    obtain ⟨f, hf⟩ := Option.isSome_iff_exists.mp (h.isSome (x := y) (by simp))
    have hprev : f.prev = none := by rw [← Memory.prev_eq hf, h.whole.prev_append]; rfl
    obtain ⟨fuel, rfl⟩ := Nat.exists_eq_add_one.mpr hfuel
    exact ⟨y, by simp, by simp [walk, hf, hprev]⟩
  | append_singleton A a ih =>
    obtain ⟨f, hf⟩ := Option.isSome_iff_exists.mp (h.isSome (x := y) (by simp))
    obtain ⟨g, hg⟩ := Option.isSome_iff_exists.mp (h.isSome (x := a) (by simp))
    have hprev : f.prev = some a := by
      rw [← Memory.prev_eq hf, h.whole.prev_append, List.getLast?_concat]
    rw [List.length_append, List.length_singleton] at hfuel
    obtain ⟨fuel, rfl⟩ := Nat.exists_eq_add_one.mpr (Nat.zero_lt_of_lt hfuel)
    by_cases hp : p g
    · obtain ⟨z, hz, hwalk⟩ := ih (y := a) (B := y :: B) (by simpa using h)
        (Nat.lt_of_succ_lt_succ hfuel)
      exact ⟨z, List.mem_append_left [y] hz, by simp [walk, hf, hprev, hg, hp, hwalk]⟩
    · exact ⟨y, by simp, by simp [walk, hf, hprev, hg, hp]⟩

theorem exists_lastCurrent (h : Queued s (A ++ y :: B)) :
    ∃ z ∈ y :: B, s.lastCurrent y = some z := by
  have hlength := h.length_lt
  rw [List.length_append, List.length_cons] at hlength
  exact exists_walk_next h _ (by omega)

theorem exists_testPriority {o : Option LoaderId} (ho : ∀ y ∈ o, (s.loaders y).isSome)
    (p : Int → Bool) : ∃ b, s.testPriority o p = some b ∧ (b = true → o ≠ none) := by
  cases o with
  | none => exact ⟨false, rfl, by simp⟩
  | some y =>
    obtain ⟨f, hf⟩ := Option.isSome_iff_exists.mp (ho y rfl)
    exact ⟨p f.priority, by simp [testPriority, hf], by simp⟩

/-! ## Places -/

/-- Where a start may put a loader. -/
inductive Placed (l : List LoaderId) (x : LoaderId) (loadFirst prior : Bool) : Move → Prop where
  | stay (hx : x ∈ l) (first : loadFirst → prior → l.head? = some x) : Placed l x loadFirst prior .stay
  | before (y : LoaderId) (hy : y ∈ l) (hne : y ≠ x)
      (first : loadFirst → prior → l.head? = some y) : Placed l x loadFirst prior (.move (some y) none)
  | after (y : LoaderId) (hy : y ∈ l) (hne : y ≠ x) (other : ¬(loadFirst ∧ prior)) :
      Placed l x loadFirst prior (.move none (some y))
  | alone (hl : l = []) : Placed l x loadFirst prior (.move none none)

variable {loadFirst prior : Bool}

/-- The first loader of the queue, wherever the loader itself is. -/
theorem placed_start (h : Queued s l) (hx : x ∈ l → l.head? ≠ some x) :
    Placed l x loadFirst prior (.move s.start none) := by
  rw [h.start]
  cases l with
  | nil => exact .alone rfl
  | cons y l =>
    refine .before y (by simp) ?_ fun _ _ => rfl
    rintro rfl
    exact hx (by simp) rfl

/-- A loader from outside of the queue. -/
theorem place_apart (h : Queued s l) (hx : x ∉ l) (hin : f.inQueue = false)
    (hok : loadFirst → prior) :
    ∃ move, s.place f loadFirst prior = some move ∧ Placed l x loadFirst prior move := by
  have hstart : Placed l x loadFirst prior (.move s.start none) :=
    placed_start h fun hmem => absurd hmem hx
  cases prior with
  | true =>
    cases loadFirst with
    | true => exact ⟨_, by simp [place, hin], hstart⟩
    | false =>
      obtain ⟨b, htest, hsome⟩ := exists_testPriority (s := s) (o := s.start)
        (fun y hy => h.isSome (List.mem_of_mem_head? (h.start ▸ hy))) (· = s.currentPriority)
      cases b with
      | false => exact ⟨_, by simp [place, hin, htest], hstart⟩
      | true =>
        obtain ⟨first, hfirst⟩ := Option.ne_none_iff_exists'.mp (hsome rfl)
        obtain ⟨l, rfl⟩ := List.head?_eq_some_iff.mp (h.start ▸ hfirst)
        obtain ⟨z, hz, hlast⟩ := exists_lastCurrent (A := []) h
        rw [hfirst] at htest
        refine ⟨.move none (some z), by simp [place, hin, htest, hfirst, hlast], .after z hz ?_ (by simp)⟩
        rintro rfl
        exact hx hz
  | false =>
    cases loadFirst with
    | true => exact absurd (hok rfl) (by simp)
    | false =>
      refine ⟨.move none s.end_, by simp [place, hin], ?_⟩
      rw [h.end_]
      cases hlast : l.getLast? with
      | none => exact .alone (List.getLast?_eq_none_iff.mp hlast)
      | some z =>
        have hz : z ∈ l := List.mem_of_getLast? hlast
        refine .after z hz ?_ (by simp)
        rintro rfl
        exact hx hz

/-- A loader that is in the queue already. -/
theorem place_listed (h : Queued s (A ++ x :: B)) (hin : f.inQueue = true)
    (hprev : f.prev = A.getLast?) (hnext : f.next = B.head?) :
    ∃ move, s.place f loadFirst prior = some move ∧
      Placed (A ++ x :: B) x loadFirst prior move := by
  have hnodup := h.nodup
  have hmem : x ∈ A ++ x :: B := by simp
  have hbehind : ∀ z ∈ B, ¬(loadFirst ∧ prior) →
      Placed (A ++ x :: B) x loadFirst prior (.move none (some z)) := by
    intro z hz hother
    exact .after z (by simp [hz]) (by grind) hother
  have hahead : ∀ z ∈ A, ¬(loadFirst ∧ prior) →
      Placed (A ++ x :: B) x loadFirst prior (.move (some z) none) := by
    intro z hz hother
    exact .before z (by simp [hz]) (by grind) fun hfirst hprior => absurd ⟨hfirst, hprior⟩ hother
  have hstay : ¬(loadFirst ∧ prior) → Placed (A ++ x :: B) x loadFirst prior .stay := by
    intro hother
    exact .stay hmem fun hfirst hprior => absurd ⟨hfirst, hprior⟩ hother
  have htest : ∀ o : Option LoaderId, (∀ z ∈ o, z ∈ A ++ x :: B) → ∀ p : Int → Bool,
      ∃ b, s.testPriority o p = some b ∧ (b = true → o ≠ none) :=
    fun o ho p => exists_testPriority (fun z hz => h.isSome (ho z hz)) p
  have hlast : ∀ b C, B = b :: C → ∃ z ∈ B, s.lastCurrent b = some z := by
    rintro b C rfl
    exact exists_lastCurrent (A := A ++ [x]) (by simpa using h)
  have hfront : ∀ a C (p : FileLoader → Bool), A = C ++ [a] →
      ∃ z ∈ A, s.walk FileLoader.prev p s.steps a = some z := by
    rintro a C p rfl
    have hlength := h.length_lt
    simp only [List.length_append, List.length_cons] at hlength
    exact exists_walk_prev (B := x :: B) (by simpa using h) p (by omega)
  cases prior with
  | true =>
    cases loadFirst with
    | true =>
      cases A with
      | nil =>
        refine ⟨.stay, ?_, .stay hmem fun _ _ => rfl⟩
        by_cases hp : f.priority = s.currentPriority <;> simp [place, hin, hp, hprev]
      | cons a A =>
        have hne : f.prev ≠ none := by rw [hprev]; simp
        have hax : a ≠ x := by grind
        refine ⟨.move s.start none, ?_, placed_start h fun _ => by simpa using hax⟩
        by_cases hp : f.priority = s.currentPriority <;> simp [place, hin, hp, hne]
    | false =>
      by_cases hp : f.priority = s.currentPriority
      · cases B with
        | nil => exact ⟨.stay, by simp [place, hin, hp, hnext], hstay (by simp)⟩
        | cons b B =>
          rw [List.head?_cons] at hnext
          obtain ⟨less, hless, -⟩ := htest (some b) (by simp) (· < s.currentPriority)
          cases less with
          | true => exact ⟨.stay, by simp [place, hin, hp, hnext, hless], hstay (by simp)⟩
          | false =>
            obtain ⟨z, hz, hwalk⟩ := hlast b B rfl
            exact ⟨.move none (some z), by simp [place, hin, hp, hnext, hless, hwalk],
              hbehind z hz (by simp)⟩
      · obtain ⟨current, hcurrent, hsome⟩ := htest f.next
          (fun z hz => by rw [hnext] at hz; simp [List.mem_of_mem_head? hz]) (· = s.currentPriority)
        cases current with
        | true =>
          obtain ⟨b, hb⟩ := Option.ne_none_iff_exists'.mp (hsome rfl)
          obtain ⟨C, hC⟩ := List.head?_eq_some_iff.mp (hnext ▸ hb)
          obtain ⟨z, hz, hwalk⟩ := hlast b C hC
          rw [hb] at hcurrent
          exact ⟨.move none (some z), by simp [place, hin, hp, hb, hcurrent, hwalk],
            hbehind z hz (by simp)⟩
        | false =>
          obtain ⟨less, hless, hsome'⟩ := htest f.prev
            (fun z hz => by rw [hprev] at hz; simp [List.mem_of_getLast? hz]) (· < s.currentPriority)
          cases less with
          | true =>
            obtain ⟨a, ha⟩ := Option.ne_none_iff_exists'.mp (hsome' rfl)
            obtain ⟨C, hC⟩ := List.getLast?_eq_some_iff.mp (hprev ▸ ha)
            obtain ⟨z, hz, hwalk⟩ := hfront a C (fun l => l.priority < s.currentPriority) hC
            rw [ha] at hless
            exact ⟨.move (some z) none, by simp [place, hin, hp, hcurrent, ha, hless, hwalk],
              hahead z hz (by simp)⟩
          | false =>
            exact ⟨.stay, by simp [place, hin, hp, hcurrent, hless], hstay (by simp)⟩
  | false =>
    cases loadFirst with
    | true =>
      cases hA : A.getLast? with
      | none =>
        rw [hA] at hprev
        exact ⟨.stay, by simp [place, hin, hprev], hstay (by simp)⟩
      | some a =>
        rw [hA] at hprev
        obtain ⟨C, hC⟩ := List.getLast?_eq_some_iff.mp hA
        obtain ⟨current, hcurrent, -⟩ := htest (some a) (by simp [hC]) (· = s.currentPriority)
        cases current with
        | true => exact ⟨.stay, by simp [place, hin, hprev, hcurrent], hstay (by simp)⟩
        | false =>
          obtain ⟨z, hz, hwalk⟩ := hfront a C (fun l => l.priority ≠ s.currentPriority) hC
          simp only [ne_eq, decide_not] at hwalk
          exact ⟨.move (some z) none, by simp [place, hin, hprev, hcurrent, hwalk],
            hahead z hz (by simp)⟩
    | false =>
      cases B with
      | nil => exact ⟨.stay, by simp [place, hin, hnext], hstay (by simp)⟩
      | cons b B =>
        refine ⟨.move none s.end_, by simp [place, hin, hnext], ?_⟩
        have hend : s.end_ = (b :: B).getLast? := by
          rw [h.end_, List.getLast?_append_cons, List.getLast?_cons_cons]
        have hmemlast := List.getLast_mem (List.cons_ne_nil b B)
        rw [hend, List.getLast?_eq_some_getLast (List.cons_ne_nil b B)]
        exact hbehind _ hmemlast (by simp)

/-! ## Starts -/

/-- What a start does to the list: the loader moves, and the others keep their order. -/
theorem insert_placed (h : Queued s l) (hx : (s.loaders x).isSome) (hmem : x ∉ l)
    (before after : Option LoaderId)
    (hbefore : ∀ y ∈ before, y ∈ l) (hafter : before = none → ∀ y ∈ after, y ∈ l)
    (hnone : before = none → after = none → l = []) :
    ∃ s' l', s.insert x before after = some s' ∧ Queued s' l' ∧ l'.erase x = l ∧
      (before = l.head? → l'.head? = some x) := by
  obtain ⟨f, hf⟩ := Option.isSome_iff_exists.mp hx
  cases before with
  | some y =>
    obtain ⟨A, B, rfl⟩ := List.append_of_mem (hbefore y rfl)
    obtain ⟨s', hinsert, hqueued⟩ := insert_before h hf hmem after
    refine ⟨s', _, hinsert, hqueued, ?_, ?_⟩
    · rw [List.erase_append_right _ (by grind), List.erase_cons_head]
    · intro hhead
      have hnodup := h.nodup
      cases A with
      | nil => rfl
      | cons a A =>
        obtain rfl : y = a := by simpa using hhead
        simp at hnodup
  | none =>
    cases after with
    | some y =>
      obtain ⟨A, B, rfl⟩ := List.append_of_mem (hafter rfl y rfl)
      have hsplit : A ++ y :: B = A ++ [y] ++ B := by simp
      rw [hsplit] at h hmem
      obtain ⟨s', hinsert, hqueued⟩ := insert_after h hf hmem
      refine ⟨s', _, hinsert, hqueued, ?_, ?_⟩
      · rw [List.erase_append_right _ (by grind), List.erase_cons_head, hsplit]
      · intro hhead
        cases A <;> simp at hhead
    | none =>
      obtain rfl := hnone rfl rfl
      obtain ⟨s', hinsert, hqueued⟩ := insert_alone h hf none none
      exact ⟨s', _, hinsert, hqueued, by simp, fun _ => rfl⟩

theorem exists_enqueue (h : Queued s l) (hx : (s.loaders x).isSome)
    (hok : loadFirst → prior ∨ x ∈ l) :
    ∃ s' l', s.enqueue x loadFirst prior = some s' ∧ Queued s' l' ∧ l'.erase x = l.erase x ∧
      (loadFirst → prior → l'.head? = some x) := by
  obtain ⟨f, hf⟩ := Option.isSome_iff_exists.mp hx
  obtain ⟨s₁, hmodify, h₁, hf₁⟩ := h.modify hf
    (g := fun l => if prior then { l with priority := s.currentPriority } else l)
    (by split <;> rfl) (by split <;> rfl) (by split <;> rfl)
  have hplace : ∃ move, s₁.place f loadFirst prior = some move ∧
      Placed l x loadFirst prior move := by
    have hin := h.inQueue_iff hf
    by_cases hmem : x ∈ l
    · obtain ⟨A, B, rfl⟩ := List.append_of_mem hmem
      refine place_listed h₁ (hin.mpr hmem) ?_ ?_
      · rw [← Memory.prev_eq hf, h.whole.prev_append]
      · rw [← Memory.next_eq hf, h.whole.next_append]
    · refine place_apart h₁ hmem ?_ fun hfirst => (hok hfirst).resolve_right hmem
      rw [← Bool.not_eq_true, hin]
      exact hmem
  obtain ⟨move, hmove, hplaced⟩ := hplace
  rw [enqueue, hf]
  simp only [Option.bind_eq_bind, Option.bind_some, hmodify, hmove]
  obtain ⟨s₂, hremove, h₂, hlive⟩ := exists_removeFromQueue h₁ (x := x) (by rw [hf₁]; rfl)
  have hmem : x ∉ l.erase x := h.nodup.not_mem_erase
  cases hplaced with
  | stay hmem first => exact ⟨s₁, l, rfl, h₁, rfl, first⟩
  | before y hy hne first =>
    have hyl : y ∈ l.erase x := (List.mem_erase_of_ne hne).mpr hy
    obtain ⟨s', l', hinsert, hqueued, hl', hhead⟩ := insert_placed h₂ hlive hmem
      (some y) none (by simpa using hyl) (by simp) (by simp)
    refine ⟨s', l', by simp [hremove, hinsert], hqueued, hl', fun hfirst hprior => hhead ?_⟩
    obtain ⟨C, rfl⟩ := List.head?_eq_some_iff.mp (first hfirst hprior)
    rw [List.erase_cons_tail (by simpa using hne)]
    rfl
  | after y hy hne other =>
    have hyl : y ∈ l.erase x := (List.mem_erase_of_ne hne).mpr hy
    obtain ⟨s', l', hinsert, hqueued, hl', -⟩ := insert_placed h₂ hlive hmem
      none (some y) (by simp) (by simpa using hyl) (by simp)
    exact ⟨s', l', by simp [hremove, hinsert], hqueued, hl', fun hfirst hprior =>
      absurd ⟨hfirst, hprior⟩ other⟩
  | alone hl =>
    subst hl
    obtain ⟨s', l', hinsert, hqueued, hl', hhead⟩ := insert_placed h₂ hlive hmem
      none none (by simp) (by simp) (by simp)
    exact ⟨s', l', by simp [hremove, hinsert], hqueued, hl', fun _ _ => hhead rfl⟩

/-- A loader outside of the queue is put first only with priority. -/
theorem enqueue_apart (h : Queued s l) (hx : (s.loaders x).isSome) (hmem : x ∉ l) :
    s.enqueue x true false = none := by
  obtain ⟨f, hf⟩ := Option.isSome_iff_exists.mp hx
  have hin : f.inQueue = false := by
    rw [← Bool.not_eq_true, h.inQueue_iff hf]
    exact hmem
  have hprev : f.prev = none := by
    rw [← Memory.prev_eq hf]
    exact (h.apart x hmem).1
  rw [enqueue, hf]
  simp [modify_eq hf, place, hin, hprev]

/-! ## Runs -/

/-- What happens to a queue. `change` stands for all that happens to a loader elsewhere. -/
inductive Step where
  | create (settings : Settings)
  | start (this : LoaderId) (loadFirst prior hasKey opens : Bool)
  | pause (this : LoaderId)
  | cancel (this : LoaderId)
  | destroy (this : LoaderId)
  | change (this : LoaderId) (settings : Settings)
  | clearPriorities

/-- The loader that a step is about. -/
def Step.loader? : Step → Option LoaderId
  | .create _ | .clearPriorities => none
  | .start this _ _ _ _ | .pause this | .cancel this | .destroy this | .change this _ => some this

def perform (s : FileLoaderQueue) : Step → Option FileLoaderQueue
  | .create settings => some (s.create settings)
  | .start this loadFirst prior hasKey opens => s.startLoader this loadFirst prior hasKey opens
  | .pause this => s.pause this
  | .cancel this => s.cancel this
  | .destroy this => s.destroy this
  | .change this settings => s.modify this fun l => { l with toSettings := settings }
  | .clearPriorities => some s.clearPriorities

/-- The start of a loader goes on to the queue. -/
def GoesOn (s : FileLoaderQueue) (this : LoaderId) (hasKey opens : Bool) : Prop :=
  ∃ f, s.loaders this = some f ∧ (f.toSettings.prepare hasKey opens).2 = .queued

/-- A loader that is not in the queue is to be first without priority. -/
def Step.FollowsNull (s : FileLoaderQueue) : Step → Prop
  | .start this true false hasKey opens =>
    s.loaders.inQueue this = some false ∧ s.GoesOn this hasKey opens
  | _ => False

/-- The loaders of a list that a step is not about. -/
def Step.others (step : Step) (l : List LoaderId) : List LoaderId :=
  match step.loader? with
  | some this => l.erase this
  | none => l

inductive Reachable : FileLoaderQueue → Prop where
  | init : Reachable {}
  | step {s s' : FileLoaderQueue} (step : Step) (h : Reachable s) (hstep : s.perform step = some s') :
    Reachable s'

theorem exists_cancel (h : Queued s l) (hx : (s.loaders x).isSome) :
    ∃ s', s.cancel x = some s' ∧ Queued s' (l.erase x) := by
  obtain ⟨f, hf⟩ := Option.isSome_iff_exists.mp hx
  obtain ⟨s₁, hmodify, h₁, hf₁⟩ := h.modify hf
    (g := fun l => { l with toSettings := l.toSettings.cancel }) rfl rfl rfl
  obtain ⟨s', hremove, h', -⟩ := exists_removeFromQueue h₁ (x := x) (by rw [hf₁]; rfl)
  exact ⟨s', by simp [cancel, hmodify, hremove], h'⟩

theorem exists_pause (h : Queued s l) (hx : (s.loaders x).isSome) :
    ∃ s', s.pause x = some s' ∧ Queued s' (l.erase x) := by
  obtain ⟨s₁, hremove, h₁, hlive⟩ := exists_removeFromQueue h hx
  obtain ⟨f, hf⟩ := Option.isSome_iff_exists.mp hlive
  obtain ⟨s', hmodify, h', -⟩ := h₁.modify hf
    (g := fun l => { l with paused := true }) rfl rfl rfl
  exact ⟨s', by simp [pause, hremove, hmodify], h'⟩

/-- A loader that is in no queue leaves nothing behind. -/
theorem exists_destroy (h : Queued s l) (hx : (s.loaders x).isSome) :
    ∃ s', s.destroy x = some s' ∧ Queued s' (l.erase x) := by
  obtain ⟨s₁, hremove, h₁, -⟩ := exists_removeFromQueue h hx
  have hmem : x ∉ l.erase x := h.nodup.not_mem_erase
  have hapart := h₁.apart x hmem
  refine ⟨_, by rw [destroy, hremove]; rfl, ?_⟩
  have hlinks : Memory.links (Function.update s₁.loaders x none) = s₁.loaders.links := by
    apply congrArg₂ Links.mk <;> funext z <;> by_cases hz : z = x
    · rw [hz, Function.update_self]
      exact hapart.2.symm
    · rw [Function.update_of_ne hz]
    · rw [hz, Function.update_self]
      exact hapart.1.symm
    · rw [Function.update_of_ne hz]
  constructor
  · exact h₁.nodup
  · exact h₁.start
  · exact h₁.end_
  · rw [hlinks]
    exact h₁.whole
  · intro z
    by_cases hz : z = x
    · simp [Memory.inQueue, hz, hmem]
    · simp only [Memory.inQueue, Function.update_of_ne hz]
      exact h₁.listed z
  · rw [hlinks]
    exact h₁.apart
  · intro z hz
    by_cases hzx : z = x
    · simp [hzx] at hz
    · simp only [Function.update_of_ne hzx] at hz
      exact h₁.known z hz

theorem queued_create (h : Queued s l) (settings : Settings) : Queued (s.create settings) l := by
  have hnone : s.loaders s.fresh = none := by
    rw [← Option.not_isSome_iff_eq_none]
    intro hsome
    exact absurd (h.known _ hsome) (Nat.lt_irrefl _)
  have hfresh : s.fresh ∉ l := by
    intro hmem
    have hsome := h.isSome hmem
    rw [hnone] at hsome
    cases hsome
  have hlinks : Memory.links (s.create settings).loaders = s.loaders.links := by
    apply congrArg₂ Links.mk <;> funext z <;> by_cases hz : z = s.fresh
    · simp [create, hz, hnone]
    · simp [create, hz]
    · simp [create, hz, hnone]
    · simp [create, hz]
  constructor
  · exact h.nodup
  · exact h.start
  · exact h.end_
  · rw [hlinks]
    exact h.whole
  · intro z
    by_cases hz : z = s.fresh
    · simp [Memory.inQueue, create, hz, hfresh]
    · simp only [Memory.inQueue, create, Function.update_of_ne hz]
      exact h.listed z
  · rw [hlinks]
    exact h.apart
  · intro z hz
    by_cases hzf : z = s.fresh
    · rw [hzf]
      exact Nat.lt_succ_self _
    · simp only [create, Function.update_of_ne hzf] at hz
      exact Nat.lt_succ_of_lt (h.known z hz)

theorem goesOn_iff (hf : s.loaders x = some f) {hasKey opens : Bool} :
    s.GoesOn x hasKey opens ↔ (f.toSettings.prepare hasKey opens).2 = .queued := by
  simp [GoesOn, hf]

theorem exists_startLoader (h : Queued s l) (hx : (s.loaders x).isSome) {hasKey opens : Bool}
    (hok : ¬Step.FollowsNull s (.start x loadFirst prior hasKey opens)) :
    ∃ s' l', s.startLoader x loadFirst prior hasKey opens = some s' ∧ Queued s' l' ∧
      l'.erase x = l.erase x ∧
      (loadFirst → prior → s.GoesOn x hasKey opens → l'.head? = some x) := by
  obtain ⟨f, hf⟩ := Option.isSome_iff_exists.mp hx
  obtain ⟨s₁, hmodify, h₁, hf₁⟩ := h.modify hf
    (g := fun l => { l with toSettings := (f.toSettings.prepare hasKey opens).1 }) rfl rfl rfl
  have hlive : (s₁.loaders x).isSome := by rw [hf₁]; rfl
  rw [startLoader, hf, goesOn_iff hf]
  simp only [Option.bind_eq_bind, Option.bind_some, hmodify]
  cases houtcome : (f.toSettings.prepare hasKey opens).2 with
  | turnedAway => exact ⟨s₁, l, rfl, h₁, rfl, by simp⟩
  | cancelled =>
    obtain ⟨s', hcancel, h'⟩ := exists_cancel h₁ hlive
    exact ⟨s', l.erase x, hcancel, h', List.erase_of_not_mem h.nodup.not_mem_erase, by simp⟩
  | queued =>
    have hlisted : loadFirst → prior ∨ x ∈ l := by
      intro hloadFirst
      by_contra hnot
      rw [not_or, Bool.not_eq_true] at hnot
      apply hok
      rw [hloadFirst, hnot.1]
      refine ⟨?_, (goesOn_iff hf).mpr houtcome⟩
      have hin : f.inQueue = false := by
        rw [← Bool.not_eq_true, h.inQueue_iff hf]
        exact hnot.2
      simp [Memory.inQueue, hf, hin]
    obtain ⟨s', l', henqueue, h', hothers, hfirst⟩ := exists_enqueue h₁ hlive hlisted
    exact ⟨s', l', henqueue, h', hothers, fun hloadFirst hprior _ => hfirst hloadFirst hprior⟩

/-- Every step that follows no null link. -/
theorem exists_perform (h : Queued s l) (step : Step)
    (hlive : ∀ this ∈ step.loader?, (s.loaders this).isSome) (hok : ¬step.FollowsNull s) :
    ∃ s' l', s.perform step = some s' ∧ Queued s' l' ∧ step.others l' = step.others l ∧
      ∀ this hasKey opens, step = .start this true true hasKey opens →
        s.GoesOn this hasKey opens → l'.head? = some this := by
  have hkept : ∀ x, (l.erase x).erase x = l.erase x :=
    fun x => List.erase_of_not_mem h.nodup.not_mem_erase
  cases step with
  | create settings =>
    exact ⟨_, l, rfl, queued_create h settings, rfl, by simp⟩
  | start this loadFirst prior hasKey opens =>
    obtain ⟨s', l', hstart, h', hothers, hfirst⟩ := exists_startLoader h (hlive this rfl) hok
    refine ⟨s', l', hstart, h', hothers, ?_⟩
    rintro _ _ _ ⟨⟩ hgoes
    exact hfirst rfl rfl hgoes
  | pause this =>
    obtain ⟨s', hpause, h'⟩ := exists_pause h (hlive this rfl)
    exact ⟨s', _, hpause, h', hkept this, by simp⟩
  | cancel this =>
    obtain ⟨s', hcancel, h'⟩ := exists_cancel h (hlive this rfl)
    exact ⟨s', _, hcancel, h', hkept this, by simp⟩
  | destroy this =>
    obtain ⟨s', hdestroy, h'⟩ := exists_destroy h (hlive this rfl)
    exact ⟨s', _, hdestroy, h', hkept this, by simp⟩
  | change this settings =>
    obtain ⟨f, hf⟩ := Option.isSome_iff_exists.mp (hlive this rfl)
    obtain ⟨s', hmodify, h', -⟩ := h.modify hf
      (g := fun l => { l with toSettings := settings }) rfl rfl rfl
    exact ⟨s', l, hmodify, h', rfl, by simp⟩
  | clearPriorities => exact ⟨_, l, rfl, h.congr rfl rfl rfl rfl rfl, rfl, by simp⟩

theorem perform_followsNull (h : Queued s l) {step : Step} (hnull : step.FollowsNull s) :
    s.perform step = none := by
  cases step with
  | start this loadFirst prior hasKey opens =>
    cases loadFirst <;> cases prior
    · cases hnull
    · cases hnull
    · obtain ⟨hin, f, hf, hgoes⟩ := hnull
      obtain ⟨s₁, hmodify, h₁, hf₁⟩ := h.modify hf
        (g := fun l => { l with toSettings := (f.toSettings.prepare hasKey opens).1 }) rfl rfl rfl
      have hmem : this ∉ l := by
        rw [← h.listed this, hin]
        simp
      rw [perform, startLoader, hf]
      simp only [Option.bind_eq_bind, Option.bind_some, hmodify, hgoes]
      exact enqueue_apart h₁ (by rw [hf₁]; rfl) hmem
    · cases hnull
  | _ => cases hnull

theorem isSome_of_perform {s' : FileLoaderQueue} {step : Step} (hstep : s.perform step = some s') :
    ∀ this ∈ step.loader?, (s.loaders this).isSome := by
  intro this hthis
  by_contra hnot
  rw [Option.not_isSome_iff_eq_none] at hnot
  cases step with
  | create | clearPriorities => cases hthis
  | start =>
    obtain rfl := Option.some.inj hthis
    simp [perform, startLoader, hnot] at hstep
  | pause =>
    obtain rfl := Option.some.inj hthis
    simp [perform, pause, removeFromQueue, hnot] at hstep
  | cancel =>
    obtain rfl := Option.some.inj hthis
    simp [perform, cancel, modify, hnot] at hstep
  | destroy =>
    obtain rfl := Option.some.inj hthis
    simp [perform, destroy, removeFromQueue, hnot] at hstep
  | change =>
    obtain rfl := Option.some.inj hthis
    simp [perform, modify, hnot] at hstep

theorem Reachable.exists_queued (h : Reachable s) : ∃ l, Queued s l := by
  induction h with
  | init => exact ⟨[], queued_init⟩
  | @step s s' step h hstep ih =>
    obtain ⟨l, hl⟩ := ih
    have hlive := isSome_of_perform hstep
    have hok : ¬step.FollowsNull s := by
      intro hnull
      rw [perform_followsNull hl hnull] at hstep
      cases hstep
    obtain ⟨s'', l', hstep', h', -⟩ := exists_perform hl step hlive hok
    rw [hstep] at hstep'
    cases hstep'
    exact ⟨l', h'⟩

theorem queue_consistent_iff (h : Reachable s) :
    ∃ l, Queued s l ∧ ∀ step : Step, (∀ this ∈ step.loader?, (s.loaders this).isSome) →
      (s.perform step ≠ none ↔ ¬step.FollowsNull s) ∧
      ∀ s', s.perform step = some s' → ∃ l', Queued s' l' ∧ step.others l' = step.others l ∧
        ∀ this hasKey opens, step = .start this true true hasKey opens →
          s.GoesOn this hasKey opens → l'.head? = some this := by
  obtain ⟨l, hl⟩ := h.exists_queued
  refine ⟨l, hl, fun step hlive => ?_⟩
  by_cases hnull : step.FollowsNull s
  · have hnone := perform_followsNull hl hnull
    refine ⟨by simp [hnone, hnull], fun s' hs' => ?_⟩
    rw [hnone] at hs'
    cases hs'
  · obtain ⟨s', l', hstep, h', hothers, hfirst⟩ := exists_perform hl step hlive hnull
    refine ⟨by simp [hstep, hnull], fun s'' hs'' => ?_⟩
    rw [hstep] at hs''
    cases hs''
    exact ⟨l', h', hothers, hfirst⟩

theorem queue_consistent_created :
    ∃ s' l', (create {} { localStatus := .notFound }).perform (.start 0 true true false false) =
      some s' ∧ Queued s' l' ∧ l'.head? = some 0 := by
  obtain ⟨l, -, h⟩ := queue_consistent_iff
    (.step (.create { localStatus := .notFound }) .init rfl)
  obtain ⟨hiff, hnext⟩ := h (.start 0 true true false false) (by rintro _ ⟨⟩; rfl)
  obtain ⟨s', hs'⟩ := Option.ne_none_iff_exists'.mp (hiff.mpr fun hnull => hnull)
  obtain ⟨l', h', -, hfirst⟩ := hnext s' hs'
  exact ⟨s', l', hs', h', hfirst 0 false false rfl ⟨_, rfl, rfl⟩⟩

/-- The first loader of all, put first without priority. -/
theorem start_follows_null :
    Reachable (create {} { localStatus := .notFound }) ∧
      (create {} { localStatus := .notFound }).perform (.start 0 true false false false) = none :=
  ⟨.step (.create { localStatus := .notFound }) .init rfl, rfl⟩

end FileLoaderQueue

end TelegramClient.Storage.Queues
