import TelegramClient.Lib.Links
import TelegramClient.Dialogs.List

/-! The structure of a list of rows: the rows are linked, numbered and found by their keys after
any changes. -/

namespace TelegramClient.Dialogs

open Linked

variable {Key : Type}

/-! ## The memory -/

namespace Memory

variable (m : Memory Key)

def links : Links RowId := ⟨fun x => (m x).bind Row.next, fun x => (m x).bind Row.prev⟩

def pos (x : RowId) : Option Int := (m x).map Row.pos

def key (x : RowId) : Option Key := (m x).bind Row.key

variable {m} {x : RowId} {r : Row Key}

theorem isSome_pos : (m.pos x).isSome = (m x).isSome := by
  simp [pos]

theorem links_update (prev next : Option RowId) :
    links (Function.update m x (some { r with prev := prev, next := next })) =
      ⟨Function.update m.links.next x next, Function.update m.links.prev x prev⟩ := by
  simp only [links, Links.mk.injEq]
  constructor <;> funext y <;> by_cases hy : y = x <;> simp [hy]

theorem pos_update_links (hr : m x = some r) (prev next : Option RowId) :
    pos (Function.update m x (some { r with prev := prev, next := next })) = m.pos := by
  funext y
  by_cases hy : y = x <;> simp [pos, hy, hr]

theorem key_update_links (hr : m x = some r) (prev next : Option RowId) :
    key (Function.update m x (some { r with prev := prev, next := next })) = m.key := by
  funext y
  by_cases hy : y = x <;> simp [key, hy, hr]

theorem links_update_pos (hr : m x = some r) (p : Int) :
    links (Function.update m x (some { r with pos := p })) = m.links := by
  simp only [links, Links.mk.injEq]
  constructor <;> funext y <;> by_cases hy : y = x <;> simp [hy, hr]

theorem pos_update_pos (p : Int) :
    pos (Function.update m x (some { r with pos := p })) = Function.update m.pos x (some p) := by
  funext y
  by_cases hy : y = x <;> simp [pos, hy]

theorem key_update_pos (hr : m x = some r) (p : Int) :
    key (Function.update m x (some { r with pos := p })) = m.key := by
  funext y
  by_cases hy : y = x <;> simp [key, hy, hr]

end Memory

namespace DialogsList

variable {l : DialogsList Key} {x y : RowId}

/-- The links of the rows are written, and all else stays. -/
structure Relinked (m m' : Memory Key) (links : Links RowId) : Prop where
  links : m'.links = links
  pos : m'.pos = m.pos
  key : m'.key = m.key

theorem Relinked.isSome {m m' : Memory Key} {s : Links RowId} (h : Relinked m m' s) (x : RowId) :
    (m' x).isSome = (m x).isSome := by
  rw [← Memory.isSome_pos, h.pos, Memory.isSome_pos]

theorem modifyRow_prev (hx : (l.rows x).isSome) (prev : Option RowId) :
    ∃ rows, l.modifyRow x (fun r => { r with prev := prev }) = some { l with rows := rows } ∧
      Relinked l.rows rows
        ⟨l.rows.links.next, Function.update l.rows.links.prev x prev⟩ := by
  obtain ⟨r, hr⟩ := Option.isSome_iff_exists.mp hx
  refine ⟨_, by rw [modifyRow, hr]; rfl, ?_, Memory.pos_update_links hr _ _,
    Memory.key_update_links hr _ _⟩
  rw [Memory.links_update]
  have hnext : l.rows.links.next x = r.next := by simp [Memory.links, hr]
  rw [← hnext, Function.update_eq_self]

theorem modifyRow_next (hx : (l.rows x).isSome) (next : Option RowId) :
    ∃ rows, l.modifyRow x (fun r => { r with next := next }) = some { l with rows := rows } ∧
      Relinked l.rows rows
        ⟨Function.update l.rows.links.next x next, l.rows.links.prev⟩ := by
  obtain ⟨r, hr⟩ := Option.isSome_iff_exists.mp hx
  refine ⟨_, by rw [modifyRow, hr]; rfl, ?_, Memory.pos_update_links hr _ _,
    Memory.key_update_links hr _ _⟩
  rw [Memory.links_update]
  have hprev : l.rows.links.prev x = r.prev := by simp [Memory.links, hr]
  rw [← hprev, Function.update_eq_self]

theorem modifyRow_links (hx : (l.rows x).isSome) (next prev : Option RowId) :
    ∃ rows, l.modifyRow x (fun r => { r with next := next, prev := prev }) =
        some { l with rows := rows } ∧
      Relinked l.rows rows
        ⟨Function.update l.rows.links.next x next, Function.update l.rows.links.prev x prev⟩ := by
  obtain ⟨r, hr⟩ := Option.isSome_iff_exists.mp hx
  exact ⟨_, by rw [modifyRow, hr]; rfl, Memory.links_update _ _,
    Memory.pos_update_links hr _ _, Memory.key_update_links hr _ _⟩

/-- The numbers of the rows are written, and all else stays. -/
structure Renumbered (m m' : Memory Key) (pos : RowId → Option Int) : Prop where
  links : m'.links = m.links
  pos : m'.pos = pos
  key : m'.key = m.key

theorem Renumbered.isSome {m m' : Memory Key} {pos : RowId → Option Int}
    (h : Renumbered m m' pos) (x : RowId) : (m' x).isSome = (pos x).isSome := by
  rw [← Memory.isSome_pos, h.pos]

theorem modifyRow_pos (hx : (l.rows x).isSome) (f : Int → Int) :
    ∃ rows, l.modifyRow x (fun r => { r with pos := f r.pos }) = some { l with rows := rows } ∧
      Renumbered l.rows rows (Function.update l.rows.pos x ((l.rows.pos x).map f)) := by
  obtain ⟨r, hr⟩ := Option.isSome_iff_exists.mp hx
  refine ⟨_, by rw [modifyRow, hr]; rfl, Memory.links_update_pos hr _, ?_,
    Memory.key_update_pos hr _⟩
  have hpos : l.rows.pos x = some r.pos := by simp [Memory.pos, hr]
  rw [Memory.pos_update_pos, hpos]
  rfl

/-! ## Taking a row out and putting it in -/

theorem rows_of_next (h : l.rows.links.next x = some y) :
    ∃ r, l.rows x = some r ∧ r.next = some y ∧ r.prev = l.rows.links.prev x := by
  simp only [Memory.links, Option.bind_eq_some_iff] at h ⊢
  obtain ⟨r, hr, hnext⟩ := h
  exact ⟨r, hr, hnext, by simp [hr]⟩

theorem remove_eq (hnext : l.rows.links.next x = some y) (hy : (l.rows y).isSome)
    (hprev : ∀ p, l.rows.links.prev x = some p → (l.rows p).isSome) :
    ∃ rows, l.remove x =
        some { l with
          rows := rows
          begin_ := if l.rows.links.prev x = none then y else l.begin_ } ∧
      Relinked l.rows rows (join l.rows.links (l.rows.links.prev x) y) := by
  obtain ⟨r, hr, hrnext, hrprev⟩ := rows_of_next hnext
  obtain ⟨rows₁, hset₁, h₁⟩ := modifyRow_prev hy r.prev
  rw [remove, hr, Option.bind_eq_bind, Option.bind_some, hrnext, Option.bind_eq_bind,
    Option.bind_some, hset₁, Option.bind_eq_bind, Option.bind_some]
  cases hp : r.prev with
  | none =>
    rw [← hrprev, hp]
    refine ⟨rows₁, by simp, ?_, h₁.pos, h₁.key⟩
    rw [h₁.links, hp]
    rfl
  | some p =>
    have hlive : (rows₁ p).isSome := by
      rw [h₁.isSome]
      exact hprev p (by rw [← hrprev, hp])
    obtain ⟨rows₂, hset₂, h₂⟩ := modifyRow_next (l := { l with rows := rows₁ }) hlive (some y)
    rw [← hrprev, hp]
    refine ⟨rows₂, by simpa using hset₂, ?_, by rw [h₂.pos, h₁.pos], by rw [h₂.key, h₁.key]⟩
    rw [h₂.links]
    simp only [h₁.links, hp]
    rfl

theorem placeBefore_eq (hx : (l.rows x).isSome) (hy : (l.rows y).isSome) (hxy : x ≠ y)
    (hprev : ∀ p, l.rows.links.prev y = some p → (l.rows p).isSome) :
    ∃ rows, l.placeBefore x y =
        some { l with
          rows := rows
          begin_ := if l.rows.links.prev y = none then x else l.begin_ } ∧
      Relinked l.rows rows
        (join (join l.rows.links (some x) y) (l.rows.links.prev y) x) := by
  obtain ⟨b, hb⟩ := Option.isSome_iff_exists.mp hy
  have hbprev : l.rows.links.prev y = b.prev := by simp [Memory.links, hb]
  obtain ⟨rows₁, hset₁, h₁⟩ := modifyRow_links hx (some y) b.prev
  have hy₁ : (rows₁ y).isSome := by
    rw [h₁.isSome]
    exact hy
  obtain ⟨rows₂, hset₂, h₂⟩ := modifyRow_prev (l := { l with rows := rows₁ }) hy₁ (some x)
  rw [placeBefore, hb, Option.bind_eq_bind, Option.bind_some, hset₁, Option.bind_eq_bind,
    Option.bind_some, hset₂, Option.bind_some]
  have hlinks : rows₂.links = ⟨Function.update l.rows.links.next x (some y),
      Function.update (Function.update l.rows.links.prev y (some x)) x b.prev⟩ := by
    rw [h₂.links]
    simp only [h₁.links]
    rw [Function.update_comm hxy]
  cases ho : b.prev with
  | none =>
    rw [hbprev, ho]
    rw [ho] at hlinks
    refine ⟨rows₂, by simp, ?_, by rw [h₂.pos, h₁.pos], by rw [h₂.key, h₁.key]⟩
    rw [hlinks]
    rfl
  | some p =>
    have hp : (rows₂ p).isSome := by
      rw [h₂.isSome, h₁.isSome]
      exact hprev p (by rw [hbprev, ho])
    obtain ⟨rows₃, hset₃, h₃⟩ := modifyRow_next (l := { l with rows := rows₂ }) hp (some x)
    rw [hbprev, ho]
    rw [ho] at hlinks
    refine ⟨rows₃, by simpa using hset₃, ?_, by rw [h₃.pos, h₂.pos, h₁.pos],
      by rw [h₃.key, h₂.key, h₁.key]⟩
    rw [h₃.links]
    simp only [hlinks]
    rfl

/-- Putting a row in after another one is putting it in before the next one. -/
theorem placeAfter_eq {z : RowId} (hx : (l.rows x).isSome) (hz : (l.rows z).isSome)
    (hnext : l.rows.links.next y = some z) (hprev : l.rows.links.prev z = some y)
    (hxz : x ≠ z) :
    ∃ rows, l.placeAfter x y = some { l with rows := rows } ∧
      Relinked l.rows rows
        (join (join l.rows.links (some x) z) (l.rows.links.prev z) x) := by
  obtain ⟨a, ha, hanext, _⟩ := rows_of_next hnext
  obtain ⟨rows₁, hset₁, h₁⟩ := modifyRow_links hx (some z) (some y)
  have hy₁ : (rows₁ y).isSome := by
    rw [h₁.isSome, ha]
    rfl
  obtain ⟨rows₂, hset₂, h₂⟩ := modifyRow_next (l := { l with rows := rows₁ }) hy₁ (some x)
  have hz₂ : (rows₂ z).isSome := by
    rw [h₂.isSome, h₁.isSome]
    exact hz
  obtain ⟨rows₃, hset₃, h₃⟩ := modifyRow_prev (l := { l with rows := rows₂ }) hz₂ (some x)
  rw [placeAfter, ha, Option.bind_eq_bind, Option.bind_some, hanext, Option.bind_eq_bind,
    Option.bind_some, hset₁, Option.bind_eq_bind, Option.bind_some, hset₂, Option.bind_some]
  refine ⟨rows₃, hset₃, ?_, by rw [h₃.pos, h₂.pos, h₁.pos], by rw [h₃.key, h₂.key, h₁.key]⟩
  rw [h₃.links, hprev]
  simp only [h₂.links, h₁.links, join]
  rw [Function.update_comm hxz]

/-! ## Numbering again -/

/-- The numbers after the elements of a list moved by one and a row by as many. -/
def moved (pos : RowId → Option Int) (M : List RowId) (x : RowId) (d : Int) (y : RowId) :
    Option Int :=
  if y ∈ M then (pos y).map (· + d)
  else if y = x then (pos y).map (· - d * M.length) else pos y

theorem moved_cons {pos : RowId → Option Int} {M : List RowId} {m : RowId} {d : Int}
    (hm : m ∉ M) (hx : x ∉ m :: M) :
    moved (Function.update (Function.update pos m ((pos m).map (· + d))) x
      ((pos x).map (· - d))) M x d = moved pos (m :: M) x d := by
  rw [List.mem_cons, not_or] at hx
  funext y
  by_cases hym : y = m
  · subst hym
    simp [moved, hm, Ne.symm hx.1]
  · by_cases hyx : y = x
    · subst hyx
      cases hp : pos y with
      | none => simp [moved, hx, hp]
      | some p =>
        simp only [moved, hx.2, if_false, if_true, Function.update_self, Option.map_some,
          List.mem_cons, hx.1, or_self, hp, Option.some.injEq, List.length_cons]
        push_cast
        ring
    · simp [moved, hym, hyx]

theorem moved_nil (pos : RowId → Option Int) (d : Int) : moved pos [] x d = pos := by
  funext y
  by_cases hy : y = x <;> simp [moved, hy]

theorem isSome_moved {pos : RowId → Option Int} {M : List RowId} {d : Int} {y : RowId} :
    (moved pos M x d y).isSome = (pos y).isSome := by
  rw [moved]
  split
  · simp
  · split <;> simp

/-- One step of the loops: a row moves by `d`, and the other one by `-d`. -/
theorem modifyRow_two {d : Int} {f g : Int → Int} (hf : ∀ p, f p = p + d) (hg : ∀ p, g p = p - d)
    (hx : (l.rows x).isSome) (hy : (l.rows y).isSome) (hxy : x ≠ y) :
    ∃ rows, (∀ k : DialogsList Key → Option (DialogsList Key),
        (do
          let l ← l.modifyRow y fun r => { r with pos := f r.pos }
          let l ← l.modifyRow x fun r => { r with pos := g r.pos }
          k l) = k { l with rows := rows }) ∧
      Renumbered l.rows rows
        (Function.update (Function.update l.rows.pos y ((l.rows.pos y).map (· + d))) x
          ((l.rows.pos x).map (· - d))) ∧
      ∀ z, (rows z).isSome = (l.rows z).isSome := by
  obtain ⟨rows₁, hset₁, h₁⟩ := modifyRow_pos hy f
  have hx₁ : (rows₁ x).isSome := by
    rw [h₁.isSome, Function.update_of_ne hxy, Memory.isSome_pos]
    exact hx
  obtain ⟨rows₂, hset₂, h₂⟩ := modifyRow_pos (l := { l with rows := rows₁ }) hx₁ g
  have hpos : rows₂.pos = Function.update (Function.update l.rows.pos y
      ((l.rows.pos y).map (· + d))) x ((l.rows.pos x).map (· - d)) := by
    rw [h₂.pos]
    simp only [h₁.pos]
    rw [Function.update_of_ne hxy, funext hf, funext hg]
  refine ⟨rows₂, ?_, ⟨by rw [h₂.links, h₁.links], hpos, by rw [h₂.key, h₁.key]⟩, ?_⟩
  · intro k
    rw [hset₁, Option.bind_eq_bind, Option.bind_some, hset₂, Option.bind_some]
  · intro z
    rw [← Memory.isSome_pos, hpos, ← Memory.isSome_pos]
    by_cases hzx : z = x
    · simp [hzx]
    · by_cases hzy : z = y <;> simp [hzx, hzy, Ne.symm hxy]

theorem updateUp_eq {till n : RowId} {M : List RowId} {fuel : Nat}
    (hchain : (n :: M).IsChain (Joined l.rows.links)) (hlast : (n :: M).getLast? = some till)
    (hnodup : (n :: M).Nodup) (hx : x ∉ M) (hxlive : (l.rows x).isSome)
    (hM : ∀ m ∈ M, (l.rows m).isSome) (hfuel : M.length < fuel) :
    ∃ rows, updateUp x till fuel n l = some { l with rows := rows } ∧
      Renumbered l.rows rows (moved l.rows.pos M x 1) := by
  induction M generalizing n l fuel with
  | nil =>
    obtain ⟨fuel, rfl⟩ := Nat.exists_eq_succ_of_ne_zero (Nat.pos_iff_ne_zero.mp hfuel)
    obtain rfl : n = till := by simpa using hlast
    exact ⟨l.rows, by simp [updateUp], rfl, (moved_nil _ _).symm, rfl⟩
  | cons m M ih =>
    obtain ⟨fuel, rfl⟩ := Nat.exists_eq_succ_of_ne_zero (Nat.ne_of_gt (Nat.zero_lt_of_lt hfuel))
    have htill : till ∈ m :: M := List.mem_of_getLast? (by simpa using hlast)
    have hn : n ≠ till := by
      rintro rfl
      exact (List.nodup_cons.mp hnodup).1 htill
    rw [List.isChain_cons_cons] at hchain
    have hxm : x ≠ m := by
      rintro rfl
      simp at hx
    obtain ⟨rows, hset, hrows, hisSome⟩ :=
      modifyRow_two (d := 1) (f := (· + 1)) (g := (· - 1)) (fun _ => rfl) (fun _ => rfl) hxlive
        (hM m List.mem_cons_self) hxm
    obtain ⟨rows', hrun, hrows'⟩ := ih (l := { l with rows := rows }) (n := m)
      (by rw [hrows.links]; exact hchain.2) (by simpa using hlast) (List.nodup_cons.mp hnodup).2
      (fun hmem => hx (List.mem_cons_of_mem _ hmem)) (by rw [hisSome]; exact hxlive)
      (fun y hy => by rw [hisSome]; exact hM y (List.mem_cons_of_mem _ hy))
      (Nat.lt_of_succ_lt_succ hfuel)
    have hm : m ∉ M := (List.nodup_cons.mp (List.nodup_cons.mp hnodup).2).1
    refine ⟨rows', ?_, by rw [hrows'.links, hrows.links], ?_, by rw [hrows'.key, hrows.key]⟩
    · have hnext : l.nextOf n = some m := hchain.1.1
      rw [updateUp, if_neg hn, hnext]
      exact (hset _).trans hrun
    · rw [hrows'.pos]
      simp only [hrows.pos]
      exact moved_cons hm hx

theorem updateDown_eq {n : RowId} {M : List RowId} {fuel : Nat}
    (hchain : (M ++ [x]).IsChain (Joined l.rows.links)) (hn : (M ++ [x]).head? = some n)
    (hnodup : (M ++ [x]).Nodup) (hxlive : (l.rows x).isSome)
    (hM : ∀ m ∈ M, (l.rows m).isSome) (hfuel : M.length < fuel) :
    ∃ rows, updateDown x fuel n l = some { l with rows := rows } ∧
      Renumbered l.rows rows (moved l.rows.pos M x (-1)) := by
  induction M generalizing n l fuel with
  | nil =>
    obtain ⟨fuel, rfl⟩ := Nat.exists_eq_succ_of_ne_zero (Nat.pos_iff_ne_zero.mp hfuel)
    obtain rfl : x = n := by simpa using hn
    exact ⟨l.rows, by simp [updateDown], rfl, (moved_nil _ _).symm, rfl⟩
  | cons m M ih =>
    obtain ⟨fuel, rfl⟩ := Nat.exists_eq_succ_of_ne_zero (Nat.ne_of_gt (Nat.zero_lt_of_lt hfuel))
    obtain rfl : m = n := by simpa using hn
    have hx : x ∉ m :: M := by
      intro hmem
      exact (List.nodup_append.mp hnodup).2.2 x hmem x (List.mem_singleton_self x) rfl
    have hxm : x ≠ m := by
      rintro rfl
      simp at hx
    obtain ⟨rows, hset, hrows, hisSome⟩ :=
      modifyRow_two (d := -1) (f := (· - 1)) (g := (· + 1)) (fun _ => rfl) (fun _ => rfl) hxlive
        (hM m List.mem_cons_self) hxm
    obtain ⟨next, hhead⟩ : ∃ next, (M ++ [x]).head? = some next := by
      cases M <;> simp
    have hnodup' : (M ++ [x]).Nodup := (List.nodup_cons.mp hnodup).2
    obtain ⟨rows', hrun, hrows'⟩ := ih (l := { l with rows := rows }) (n := next)
      (by rw [hrows.links]; exact hchain.tail) hhead hnodup' (by rw [hisSome]; exact hxlive)
      (fun y hy => by rw [hisSome]; exact hM y (List.mem_cons_of_mem _ hy))
      (Nat.lt_of_succ_lt_succ hfuel)
    have hm : m ∉ M := by
      intro hmem
      exact (List.nodup_cons.mp hnodup).1 (List.mem_append_left _ hmem)
    refine ⟨rows', ?_, by rw [hrows'.links, hrows.links], ?_, by rw [hrows'.key, hrows.key]⟩
    · have hnext : DialogsList.nextOf { l with rows := rows } m = some next := by
        have hjoined : Joined rows.links m next := by
          rw [hrows.links]
          exact hchain.rel_head? hhead
        exact hjoined.1
      rw [updateDown, if_neg (Ne.symm hxm)]
      refine (hset _).trans ?_
      rw [hnext]
      exact hrun
    · rw [hrows'.pos]
      simp only [hrows.pos]
      exact moved_cons hm hx

theorem closeGap_eq {n : RowId} {C : List RowId} {fuel : Nat}
    (hchain : (C ++ [l.end_]).IsChain (Joined l.rows.links))
    (hn : (C ++ [l.end_]).head? = some n) (hnodup : (C ++ [l.end_]).Nodup)
    (hC : ∀ c ∈ C, (l.rows c).isSome) (hfuel : C.length < fuel) :
    ∃ rows, closeGap fuel n l = some { l with rows := rows } ∧
      Renumbered l.rows rows
        (fun y => if y ∈ C then (l.rows.pos y).map (· - 1) else l.rows.pos y) := by
  induction C generalizing n l fuel with
  | nil =>
    obtain ⟨fuel, rfl⟩ := Nat.exists_eq_succ_of_ne_zero (Nat.pos_iff_ne_zero.mp hfuel)
    obtain rfl : l.end_ = n := by simpa using hn
    exact ⟨l.rows, by simp [closeGap], rfl, by simp, rfl⟩
  | cons c C ih =>
    obtain ⟨fuel, rfl⟩ := Nat.exists_eq_succ_of_ne_zero (Nat.ne_of_gt (Nat.zero_lt_of_lt hfuel))
    obtain rfl : c = n := by simpa using hn
    have hne : c ≠ l.end_ := by
      rintro rfl
      simp at hnodup
    obtain ⟨rows, hset, hrows⟩ := modifyRow_pos (hC c List.mem_cons_self) (· - 1)
    obtain ⟨next, hhead⟩ : ∃ next, (C ++ [l.end_]).head? = some next := by
      cases C <;> simp
    have hc : c ∉ C := by
      intro hmem
      exact (List.nodup_cons.mp hnodup).1 (List.mem_append_left _ hmem)
    obtain ⟨rows', hrun, hrows'⟩ := ih (l := { l with rows := rows }) (n := next)
      (by rw [hrows.links]; exact hchain.tail) hhead (List.nodup_cons.mp hnodup).2
      (by
        intro y hy
        have hyc : y ≠ c := by
          rintro rfl
          exact hc hy
        rw [hrows.isSome, Function.update_of_ne hyc, Memory.isSome_pos]
        exact hC y (List.mem_cons_of_mem _ hy))
      (Nat.lt_of_succ_lt_succ hfuel)
    refine ⟨rows', ?_, by rw [hrows'.links, hrows.links], ?_, by rw [hrows'.key, hrows.key]⟩
    · have hnext : DialogsList.nextOf { l with rows := rows } c = some next := by
        have hjoined : Joined rows.links c next := by
          rw [hrows.links]
          exact hchain.rel_head? hhead
        exact hjoined.1
      rw [closeGap, if_neg hne, hset, Option.bind_eq_bind, Option.bind_some, hnext]
      exact hrun
    · rw [hrows'.pos]
      simp only [hrows.pos]
      funext y
      by_cases hyc : y = c
      · subst hyc
        simp [hc]
      · simp [hyc]

theorem numbered_moved_up {pos : RowId → Option Int} {k : Int} {A M D : List RowId}
    (h : Numbered pos k (A ++ M ++ x :: D)) (hnodup : (A ++ M ++ x :: D).Nodup) :
    Numbered (moved pos M x 1) k (A ++ x :: M ++ D) := by
  rw [List.append_assoc, List.nodup_append] at hnodup
  obtain ⟨-, hnodup, hA⟩ := hnodup
  obtain ⟨-, hxD, hM⟩ := List.nodup_append.mp hnodup
  rw [List.append_assoc, numbered_append, numbered_append] at h
  obtain ⟨hnA, hnM, hnx, hnD⟩ := h
  rw [List.append_assoc, numbered_append, List.cons_append, Numbered, numbered_append]
  have hxM : x ∉ M := fun hmem => hM x hmem x List.mem_cons_self rfl
  refine ⟨hnA.congr ?_, ?_, hnM.shift ?_, ?_⟩
  · intro a ha
    have haM : a ∉ M := fun hmem => hA a ha a (List.mem_append_left _ hmem) rfl
    have hax : a ≠ x := fun he => hA a ha x (by simp) he
    simp [moved, haM, hax]
  · simp only [moved, hxM, if_false, if_true, hnx, Option.map_some, Option.some.injEq]
    omega
  · intro m hm
    simp [moved, hm]
  · have hshift : k + A.length + 1 + M.length = k + A.length + M.length + 1 := by omega
    rw [hshift]
    refine hnD.congr ?_
    intro d hd
    have hdM : d ∉ M := fun hmem => hM d hmem d (List.mem_cons_of_mem _ hd) rfl
    have hdx : d ≠ x := by
      rintro rfl
      exact (List.nodup_cons.mp hxD).1 hd
    simp [moved, hdM, hdx]

theorem numbered_moved_down {pos : RowId → Option Int} {k : Int} {A M D : List RowId}
    (h : Numbered pos k (A ++ x :: M ++ D)) (hnodup : (A ++ x :: M ++ D).Nodup) :
    Numbered (moved pos M x (-1)) k (A ++ M ++ x :: D) := by
  rw [List.append_assoc, List.nodup_append] at hnodup
  obtain ⟨-, hnodup, hA⟩ := hnodup
  rw [List.cons_append, List.nodup_cons, List.mem_append, not_or] at hnodup
  obtain ⟨⟨hxM, hxD⟩, hnodup⟩ := hnodup
  obtain ⟨-, -, hM⟩ := List.nodup_append.mp hnodup
  rw [List.append_assoc, numbered_append, List.cons_append, Numbered, numbered_append] at h
  obtain ⟨hnA, hnx, hnM, hnD⟩ := h
  rw [List.append_assoc, numbered_append, numbered_append, Numbered]
  have hback : k + A.length + 1 + -1 = k + A.length := by omega
  refine ⟨hnA.congr ?_, hback ▸ hnM.shift ?_, ?_, ?_⟩
  · intro a ha
    have haM : a ∉ M := fun hmem => hA a ha a (by simp [hmem]) rfl
    have hax : a ≠ x := fun he => hA a ha x (by simp) he
    simp [moved, haM, hax]
  · intro m hm
    simp [moved, hm]
  · simp only [moved, hxM, if_false, if_true, hnx, Option.map_some, Option.some.injEq]
    omega
  · have hshift : k + A.length + M.length + 1 = k + A.length + 1 + M.length := by omega
    rw [hshift]
    refine hnD.congr ?_
    intro d hd
    have hdM : d ∉ M := fun hmem => hM d hmem d hd rfl
    have hdx : d ≠ x := by
      rintro rfl
      exact hxD hd
    simp [moved, hdM, hdx]

/-! ## The structure -/

/-- The rows of a list, in their order. -/
structure WellFormed (l : DialogsList Key) (ids : List RowId) : Prop where
  whole : Whole l.rows.links (ids ++ [l.end_])
  nodup : (ids ++ [l.end_]).Nodup
  numbered : Numbered l.rows.pos 0 (ids ++ [l.end_])
  live : ∀ x, (l.rows x).isSome → x ∈ ids ++ [l.end_]
  fresh : ∀ x ∈ ids ++ [l.end_], x < l.fresh
  begin_ : (ids ++ [l.end_]).head? = some l.begin_
  count : l.count = ids.length
  keys : ∀ x ∈ ids, ∃ key, l.rows.key x = some key ∧ l.rowByKey key = some x
  rowByKey : ∀ key x, l.rowByKey key = some x → x ∈ ids ∧ l.rows.key x = some key
  current : l.current ∈ ids ++ [l.end_]

/-- The same rows with the same keys. -/
structure SameRows (l l' : DialogsList Key) : Prop where
  end_ : l'.end_ = l.end_
  sortMode : l'.sortMode = l.sortMode
  count : l'.count = l.count
  fresh : l'.fresh = l.fresh
  rowByKey : l'.rowByKey = l.rowByKey
  key : l'.rows.key = l.rows.key

section Moves

variable {l' : DialogsList Key} {ids ids' A B C : List RowId} {b : RowId}

theorem WellFormed.isSome (h : WellFormed l ids) (hx : x ∈ ids ++ [l.end_]) :
    (l.rows x).isSome := by
  rw [← Memory.isSome_pos]
  exact h.numbered.isSome hx

theorem WellFormed.length_lt (h : WellFormed l ids) : (ids ++ [l.end_]).length < l.steps := by
  have hsub : (ids ++ [l.end_]).Subperm (List.range l.fresh) := by
    apply List.subperm_of_subset h.nodup
    intro x hx
    exact List.mem_range.mpr (h.fresh x hx)
  have hle := hsub.length_le
  rw [List.length_range] at hle
  exact Nat.lt_succ_of_le hle

theorem WellFormed.of_perm (h : WellFormed l ids) (hsame : SameRows l l') (hperm : ids'.Perm ids)
    (hwhole : Whole l'.rows.links (ids' ++ [l.end_]))
    (hnumbered : Numbered l'.rows.pos 0 (ids' ++ [l.end_]))
    (hlive : ∀ x, (l'.rows x).isSome → (l.rows x).isSome)
    (hbegin : (ids' ++ [l.end_]).head? = some l'.begin_)
    (hcurrent : l'.current ∈ ids' ++ [l.end_]) : WellFormed l' ids' := by
  have hfull : (ids' ++ [l.end_]).Perm (ids ++ [l.end_]) := hperm.append_right _
  have hend := hsame.end_
  constructor
  · rw [hend]
    exact hwhole
  · rw [hend]
    exact hfull.nodup_iff.mpr h.nodup
  · rw [hend]
    exact hnumbered
  · intro x hx
    rw [hend]
    exact hfull.mem_iff.mpr (h.live x (hlive x hx))
  · intro x hx
    rw [hend] at hx
    rw [hsame.fresh]
    exact h.fresh x (hfull.mem_iff.mp hx)
  · rw [hend]
    exact hbegin
  · rw [hsame.count, h.count, hperm.length_eq]
  · intro x hx
    rw [hsame.key, hsame.rowByKey]
    exact h.keys x (hperm.mem_iff.mp hx)
  · intro key x hkey
    rw [hsame.rowByKey] at hkey
    rw [hsame.key, hperm.mem_iff]
    exact h.rowByKey key x hkey
  · rw [hend]
    exact hcurrent

theorem SameRows.refl (l : DialogsList Key) : SameRows l l := ⟨rfl, rfl, rfl, rfl, rfl, rfl⟩

theorem SameRows.trans {l'' : DialogsList Key} (h : SameRows l l') (h' : SameRows l' l'') :
    SameRows l l'' :=
  ⟨h'.end_.trans h.end_, h'.sortMode.trans h.sortMode, h'.count.trans h.count,
    h'.fresh.trans h.fresh, h'.rowByKey.trans h.rowByKey, h'.key.trans h.key⟩

theorem remove_spec {rest : List RowId} (hwhole : Whole l.rows.links (A ++ x :: y :: rest))
    (hnodup : (A ++ x :: y :: rest).Nodup) (hlive : ∀ z ∈ A ++ x :: y :: rest, (l.rows z).isSome) :
    ∃ rows, l.remove x =
        some { l with rows := rows, begin_ := if A = [] then y else l.begin_ } ∧
      Relinked l.rows rows rows.links ∧ Whole rows.links (A ++ y :: rest) := by
  have hprev : ∀ p, l.rows.links.prev x = some p → (l.rows p).isSome := by
    intro p hp
    rw [hwhole.prev_append] at hp
    exact hlive p (List.mem_append_left _ (List.mem_of_getLast? hp))
  obtain ⟨rows, hset, hrows⟩ := remove_eq hwhole.next_eq (hlive y (by simp)) hprev
  have hfirst : l.rows.links.prev x = none ↔ A = [] := by
    rw [hwhole.prev_append, List.getLast?_eq_none_iff]
  refine ⟨rows, ?_, ⟨rfl, hrows.pos, hrows.key⟩, ?_⟩
  · rw [hset]
    simp only [hfirst]
  · rw [hrows.links]
    exact hwhole.erase hnodup

theorem placeBefore_spec {rest : List RowId} (hwhole : Whole l.rows.links (A ++ y :: rest))
    (hnodup : (A ++ x :: y :: rest).Nodup) (hlive : ∀ z ∈ A ++ x :: y :: rest, (l.rows z).isSome) :
    ∃ rows, l.placeBefore x y =
        some { l with rows := rows, begin_ := if A = [] then x else l.begin_ } ∧
      Relinked l.rows rows rows.links ∧ Whole rows.links (A ++ x :: y :: rest) := by
  have hprev : ∀ p, l.rows.links.prev y = some p → (l.rows p).isSome := by
    intro p hp
    rw [hwhole.prev_append] at hp
    exact hlive p (List.mem_append_left _ (List.mem_of_getLast? hp))
  have hxy : x ≠ y := by
    rintro rfl
    simp [List.nodup_append] at hnodup
  obtain ⟨rows, hset, hrows⟩ := placeBefore_eq (hlive x (by simp)) (hlive y (by simp)) hxy hprev
  have hfirst : l.rows.links.prev y = none ↔ A = [] := by
    rw [hwhole.prev_append, List.getLast?_eq_none_iff]
  refine ⟨rows, ?_, ⟨rfl, hrows.pos, hrows.key⟩, ?_⟩
  · rw [hset]
    simp only [hfirst]
  · rw [hrows.links]
    exact hwhole.insert hnodup

theorem placeAfter_spec {z : RowId} {rest : List RowId}
    (hwhole : Whole l.rows.links (A ++ y :: z :: rest))
    (hnodup : (A ++ y :: x :: z :: rest).Nodup)
    (hlive : ∀ w ∈ A ++ y :: x :: z :: rest, (l.rows w).isSome) :
    ∃ rows, l.placeAfter x y = some { l with rows := rows } ∧
      Relinked l.rows rows rows.links ∧ Whole rows.links (A ++ y :: x :: z :: rest) := by
  have hxz : x ≠ z := by
    rintro rfl
    simp [List.nodup_append] at hnodup
  obtain ⟨rows, hset, hrows⟩ := placeAfter_eq (hlive x (by simp)) (hlive z (by simp))
    hwhole.next_eq hwhole.prev_eq hxz
  refine ⟨rows, hset, ⟨rfl, hrows.pos, hrows.key⟩, ?_⟩
  rw [hrows.links]
  have hins := Whole.insert (A := A ++ [y]) (x := x) (y := z) (B := rest)
    (by simpa using hwhole) (by simpa using hnodup)
  simpa using hins

theorem current_off (row next : RowId) :
    (if l.current = row then { l with current := next } else l) =
      { l with current := if l.current = row then next else l.current } := by
  split <;> rfl

theorem insertBefore_spec (h : WellFormed l (A ++ b :: B ++ x :: C)) :
    ∃ l', l.insertBefore x b = some (true, l') ∧ SameRows l l' ∧
      WellFormed l' (A ++ x :: b :: B ++ C) := by
  obtain ⟨y, rest, hrest⟩ : ∃ y rest, C ++ [l.end_] = y :: rest := by
    cases C <;> simp
  have hfull : A ++ b :: B ++ x :: C ++ [l.end_] = (A ++ b :: B) ++ x :: y :: rest := by
    simp [← hrest]
  have hnew : A ++ x :: b :: B ++ C ++ [l.end_] = A ++ x :: b :: (B ++ y :: rest) := by
    simp [← hrest]
  have hperm : (A ++ x :: b :: B ++ C).Perm (A ++ b :: B ++ x :: C) := by
    rw [List.append_assoc, List.append_assoc, List.perm_append_left_iff]
    exact List.perm_middle.symm
  have hnodupNew : (A ++ x :: b :: (B ++ y :: rest)).Nodup := by
    rw [← hnew]
    exact (hperm.append_right _).nodup_iff.mpr h.nodup
  have hwhole := h.whole
  have hnodup := h.nodup
  have hlive : ∀ z ∈ A ++ b :: B ++ x :: C ++ [l.end_], (l.rows z).isSome := fun z => h.isSome
  rw [hfull] at hwhole hnodup hlive
  obtain ⟨till, htill⟩ : ∃ till, (b :: B).getLast? = some till := by
    simp [List.getLast?_cons]
  have hprev : (l.rows x).bind Row.prev = some till := by
    have hp := hwhole.prev_append
    rw [List.getLast?_append, htill] at hp
    exact hp
  have hxb : x ≠ b := by
    rintro rfl
    simp [List.nodup_append] at hnodup
  obtain ⟨current, hcurrent⟩ : ∃ current, current = if l.current = x then till else l.current :=
    ⟨_, rfl⟩
  -- the row is taken out
  obtain ⟨rows₁, hremove, h₁, hwhole₁⟩ := remove_spec (l := { l with current := current })
    hwhole hnodup hlive
  have hwhole₁' : Whole rows₁.links (A ++ b :: (B ++ y :: rest)) := by simpa using hwhole₁
  -- and put in again
  obtain ⟨rows₂, hplace, h₂, hwhole₂⟩ := placeBefore_spec
    (l := { l with current := current, rows := rows₁ }) (x := x) hwhole₁' hnodupNew (by
      intro z hz
      rw [h₁.isSome]
      apply hlive
      rw [← hfull]
      rw [← hnew] at hz
      exact (hperm.append_right _).mem_iff.mp hz)
  -- its number is that of the other row
  have hchain : (x :: b :: B).IsChain (Joined rows₂.links) := by
    have hall := hwhole₂.chain
    rw [show A ++ x :: b :: (B ++ y :: rest) = A ++ (x :: b :: B ++ y :: rest) by simp] at hall
    exact hall.right_of_append.left_of_append
  obtain ⟨hnodupM, hxM⟩ : (x :: b :: B).Nodup ∧ x ∉ b :: B := by
    have hsub : (x :: b :: B).Nodup := by
      refine hnodupNew.sublist ?_
      rw [show A ++ x :: b :: (B ++ y :: rest) = A ++ (x :: b :: B ++ y :: rest) by simp]
      exact (List.sublist_append_left _ _).trans (List.sublist_append_right _ _)
    exact ⟨hsub, (List.nodup_cons.mp hsub).1⟩
  have hlive₂ (z : RowId) (hz : z ∈ A ++ b :: B ++ x :: y :: rest) : (rows₂ z).isSome := by
    rw [h₂.isSome, h₁.isSome]
    exact hlive z hz
  have hsteps := h.length_lt
  rw [hfull] at hsteps
  obtain ⟨rows₃, hupdate, h₃⟩ := updateUp_eq
    (l := { l with current := current, rows := rows₂, begin_ := if A = [] then x else l.begin_ })
    (x := x) (n := x) (M := b :: B) hchain
    (by rw [List.getLast?_cons_cons]; exact htill) hnodupM hxM (hlive₂ x (by simp))
    (fun m hm => hlive₂ m (by simp only [List.mem_append]; exact .inl (.inr hm)))
    (show (b :: B).length < l.steps by simp only [List.length_append] at hsteps; omega)
  refine ⟨{ l with
    current := current, rows := rows₃, begin_ := if A = [] then x else l.begin_ }, ?_, ?_, ?_⟩
  · rw [insertBefore, if_neg hxb, hprev, Option.bind_eq_bind, Option.bind_some]
    simp only [current_off, ← hcurrent]
    rw [hremove, Option.bind_eq_bind, Option.bind_some]
    simp only [List.append_eq_nil_iff, reduceCtorEq, and_false, if_false]
    rw [hplace, Option.bind_some]
    exact congrArg (fun l => Option.bind l fun l => some (true, l)) hupdate
  · exact ⟨rfl, rfl, rfl, rfl, rfl, by rw [h₃.key, h₂.key, h₁.key]⟩
  · refine h.of_perm ?_ hperm ?_ ?_ ?_ ?_ ?_
    · exact ⟨rfl, rfl, rfl, rfl, rfl, by rw [h₃.key, h₂.key, h₁.key]⟩
    · rw [hnew, h₃.links]
      exact hwhole₂
    · have hnumbered := h.numbered
      rw [hfull] at hnumbered
      have hmoved := numbered_moved_up hnumbered hnodup
      rw [hnew, h₃.pos]
      simp only [h₂.pos, h₁.pos]
      simpa using hmoved
    · intro z hz
      rw [h₃.isSome, isSome_moved] at hz
      simp only [h₂.pos, h₁.pos, Memory.isSome_pos] at hz
      exact hz
    · cases A with
      | nil => rfl
      | cons a A => exact h.begin_
    · show current ∈ _
      rw [hcurrent]
      split
      · exact List.mem_append_left _ (List.mem_append_left _ (List.mem_append_right _
          (List.mem_cons_of_mem _ (List.mem_of_getLast? htill))))
      · exact (hperm.append_right _).mem_iff.mpr h.current

theorem insertAfter_spec (h : WellFormed l (A ++ x :: (B ++ b :: C))) :
    ∃ l', l.insertAfter x b = some (true, l') ∧ SameRows l l' ∧
      WellFormed l' (A ++ B ++ b :: x :: C) := by
  obtain ⟨y, rest, hrest⟩ : ∃ y rest, B ++ b :: C ++ [l.end_] = y :: rest := by
    cases B <;> simp
  obtain ⟨z, tail, htail⟩ : ∃ z tail, C ++ [l.end_] = z :: tail := by
    cases C <;> simp
  have hfull : A ++ x :: (B ++ b :: C) ++ [l.end_] = A ++ x :: y :: rest := by
    rw [List.append_assoc, List.cons_append, ← hrest]
  have hnew : A ++ B ++ b :: x :: C ++ [l.end_] = (A ++ B) ++ b :: x :: z :: tail := by
    simp [← htail]
  have hperm : (A ++ B ++ b :: x :: C).Perm (A ++ x :: (B ++ b :: C)) := by
    rw [List.append_assoc, List.perm_append_left_iff]
    have hmid : (B ++ [b] ++ x :: C).Perm (x :: (B ++ [b] ++ C)) := List.perm_middle
    simpa using hmid
  have hnodupNew : ((A ++ B) ++ b :: x :: z :: tail).Nodup := by
    rw [← hnew]
    exact (hperm.append_right _).nodup_iff.mpr h.nodup
  have hwhole := h.whole
  have hnodup := h.nodup
  have hlive : ∀ z ∈ A ++ x :: (B ++ b :: C) ++ [l.end_], (l.rows z).isSome := fun z => h.isSome
  rw [hfull] at hwhole hnodup hlive
  have hnext : l.nextOf x = some y := hwhole.next_eq
  have hxb : x ≠ b := by
    rintro rfl
    simp [List.nodup_append] at hnodupNew
  obtain ⟨current, hcurrent⟩ : ∃ current, current = if l.current = x then y else l.current :=
    ⟨_, rfl⟩
  -- the row is taken out
  obtain ⟨rows₁, hremove, h₁, hwhole₁⟩ := remove_spec (l := { l with current := current })
    hwhole hnodup hlive
  have hwhole₁' : Whole rows₁.links ((A ++ B) ++ b :: z :: tail) := by
    rw [← hrest] at hwhole₁
    simpa [← htail] using hwhole₁
  -- and put in again
  obtain ⟨rows₂, hplace, h₂, hwhole₂⟩ := placeAfter_spec
    (l := { l with
      current := current, rows := rows₁, begin_ := if A = [] then y else l.begin_ })
    (x := x) hwhole₁' hnodupNew (by
      intro w hw
      rw [h₁.isSome]
      apply hlive
      rw [← hfull]
      rw [← hnew] at hw
      exact (hperm.append_right _).mem_iff.mp hw)
  -- its number is that of the other row
  have hsplit : (A ++ B) ++ b :: x :: z :: tail = A ++ ((B ++ [b] ++ [x]) ++ z :: tail) := by simp
  have hchain : (B ++ [b] ++ [x]).IsChain (Joined rows₂.links) := by
    have hall := hwhole₂.chain
    rw [hsplit] at hall
    exact hall.right_of_append.left_of_append
  have hnodupM : (B ++ [b] ++ [x]).Nodup := by
    refine hnodupNew.sublist ?_
    rw [hsplit]
    exact (List.sublist_append_left _ _).trans (List.sublist_append_right _ _)
  have hlive₂ (w : RowId) (hw : w ∈ A ++ x :: (B ++ b :: C) ++ [l.end_]) : (rows₂ w).isSome := by
    rw [h₂.isSome, h₁.isSome]
    exact h.isSome hw
  have hy : (B ++ [b] ++ [x]).head? = some y := by
    cases B with
    | nil =>
      obtain ⟨rfl, -⟩ := List.cons.inj hrest
      rfl
    | cons a B =>
      obtain ⟨rfl, -⟩ := List.cons.inj hrest
      rfl
  have hsteps := h.length_lt
  obtain ⟨rows₃, hupdate, h₃⟩ := updateDown_eq
    (l := { l with current := current, rows := rows₂, begin_ := if A = [] then y else l.begin_ })
    (x := x) (n := y) (M := B ++ [b]) hchain hy hnodupM
    (hlive₂ x (by simp)) (fun m hm => hlive₂ m (by
      simp only [List.mem_append, List.mem_cons, List.not_mem_nil, or_false] at hm ⊢
      tauto))
    (show (B ++ [b]).length < l.steps by
      simp only [List.length_append, List.length_cons, List.length_nil] at hsteps ⊢
      omega)
  refine ⟨{ l with
    current := current, rows := rows₃, begin_ := if A = [] then y else l.begin_ }, ?_, ?_, ?_⟩
  · rw [insertAfter, if_neg hxb, hnext, Option.bind_eq_bind, Option.bind_some]
    simp only [current_off, ← hcurrent]
    rw [hremove, Option.bind_eq_bind, Option.bind_some]
    rw [hplace, Option.bind_some]
    exact congrArg (fun l => Option.bind l fun l => some (true, l)) hupdate
  · exact ⟨rfl, rfl, rfl, rfl, rfl, by rw [h₃.key, h₂.key, h₁.key]⟩
  · refine h.of_perm ?_ hperm ?_ ?_ ?_ ?_ ?_
    · exact ⟨rfl, rfl, rfl, rfl, rfl, by rw [h₃.key, h₂.key, h₁.key]⟩
    · rw [hnew, h₃.links]
      exact hwhole₂
    · have hnumbered := h.numbered
      have hlist : A ++ x :: (B ++ b :: C) ++ [l.end_] =
          A ++ x :: (B ++ [b]) ++ (z :: tail) := by simp [← htail]
      rw [hlist] at hnumbered
      have hmoved := numbered_moved_down hnumbered (by rw [← hlist]; exact h.nodup)
      rw [hnew, h₃.pos]
      simp only [h₂.pos, h₁.pos]
      simpa using hmoved
    · intro w hw
      rw [h₃.isSome, isSome_moved] at hw
      simp only [h₂.pos, h₁.pos, Memory.isSome_pos] at hw
      exact hw
    · cases A with
      | nil =>
        rw [List.nil_append]
        cases B with
        | nil =>
          obtain ⟨rfl, -⟩ := List.cons.inj hrest
          rfl
        | cons a B =>
          obtain ⟨rfl, -⟩ := List.cons.inj hrest
          rfl
      | cons a A => exact h.begin_
    · show current ∈ _
      rw [hcurrent]
      split
      · rw [(hperm.append_right _).mem_iff, hfull]
        simp
      · exact (hperm.append_right _).mem_iff.mpr h.current

end Moves

end DialogsList

end TelegramClient.Dialogs
