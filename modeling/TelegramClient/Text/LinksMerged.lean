import TelegramClient.Text.LinkRounds

/-! What `ParseEntities` makes of the entities a text has and of the links it recognizes, when the
text is not rich. -/

namespace TelegramClient.Text

variable {g : LinkSyntax} {flags : ParseFlags} {text : List QChar}

/-! ## Recognized links -/

/-- A round of the loop without the entities there are. -/
def recognizeStep (g : LinkSyntax) (flags : ParseFlags) (text : List QChar)
    (s : Scan × List EntityInText) : List EntityInText ⊕ (Scan × List EntityInText) :=
  if s.1.offset < text.length then
    match nextLink g flags text s.1 with
    | none => .inl s.2
    | some (scan, link) => .inr (scan, s.2 ++ link.toList)
  else .inl s.2

/-- The links of a text that is not rich, if they are found within `n` rounds. -/
def recognizedLinks (g : LinkSyntax) (flags : ParseFlags) (text : List QChar) (n : Nat) :
    Option (List EntityInText) :=
  Loops.iterate (recognizeStep g flags text) n (startScan text false, [])

/-- A state of the loop when there are no commands to look for. -/
structure Scan.Plain (s : Scan) (size : Nat) : Prop where
  commandOffset : s.commandOffset = size
  inLink : s.inLink = false
  offset : s.offset ≤ s.matchOffset
  matchOffset : s.matchOffset ≤ size

theorem refresh_plain {s : Scan} (h : s.Plain text.length) (hlt : s.offset < text.length) :
    s.refresh text = s := by
  rw [Scan.refresh, if_neg]
  rw [h.commandOffset]
  omega

theorem check_plain {s : Scan} (h : s.commandOffset = text.length) (tagStart : Nat) :
    checkTagStartInCommand text tagStart s = (false, s) := by
  rw [checkTagStartInCommand, if_neg]
  omega

theorem nextLink_plain (hg : g.Valid text) {s t : Scan} {link : Option EntityInText}
    (h : s.Plain text.length) (hlt : s.offset < text.length)
    (hnext : nextLink g flags text s = some (t, link)) :
    t.Plain text.length ∧ s.matchOffset < t.matchOffset ∧ s.offset ≤ t.offset ∧
      ∀ l, link = some l →
        s.offset ≤ l.offset ∧ 0 < l.length ∧ l.offset + l.length = t.offset := by
  have hstep := nextLink_spec hg h.offset hnext
  rw [refresh_plain h hlt] at hstep
  obtain ⟨hcommand, hlink, hoffset, hmatch⟩ := h
  cases hstep with
  | ignored skip end_ hlt hend =>
    refine ⟨⟨hcommand, hlink, le_rfl, hend⟩, hlt, ?_, by simp⟩
    dsimp only
    omega
  | blocked skip tagStart inCommand u hstart hlt hcheck hblocked =>
    rw [check_plain (s := { s with mentionSkip := skip }) hcommand] at hcheck
    cases hcheck
    simp [hlink] at hblocked
  | invalid skip tagStart end_ u hstart hlt hend hcheck hfree =>
    rw [check_plain (s := { s with mentionSkip := skip }) hcommand] at hcheck
    cases hcheck
    refine ⟨⟨hcommand, hlink, ?_, hend⟩, ?_, le_rfl, by simp⟩
    · dsimp only
      omega
    · dsimp only
      omega
  | found skip tagStart end_ u l hstart hlt hend hcheck hfree hle hlength hlinkEnd =>
    rw [check_plain (s := { s with mentionSkip := skip }) hcommand] at hcheck
    cases hcheck
    refine ⟨⟨hcommand, hlink, le_rfl, hend⟩, ?_, ?_, ?_⟩
    · dsimp only
      omega
    · dsimp only
      omega
    · intro l' hl
      cases hl
      exact ⟨hle, hlength, hlinkEnd⟩

/-- The links that were found so far. -/
structure LinksBefore (size : Nat) (s : Scan × List EntityInText) : Prop where
  plain : s.1.Plain size
  inside : ∀ l ∈ s.2, 0 ≤ l.offset ∧ 0 < l.length ∧ l.offset + l.length ≤ s.1.offset
  sorted : s.2.Pairwise fun a b => a.offset + a.length ≤ b.offset

theorem recognizeStep_again (hg : g.Valid text) {s t : Scan × List EntityInText}
    (h : LinksBefore text.length s) (hstep : recognizeStep g flags text s = .inr t) :
    LinksBefore text.length t ∧
      text.length - t.1.matchOffset < text.length - s.1.matchOffset := by
  rw [recognizeStep] at hstep
  split at hstep
  next hlt =>
    split at hstep
    · cases hstep
    next scan link hnext =>
      cases hstep
      obtain ⟨hplain, hmatch, hoffset, hlink⟩ := nextLink_plain hg h.plain hlt hnext
      have hbound := hplain.matchOffset
      refine ⟨⟨hplain, ?_, ?_⟩, by dsimp only; omega⟩
      · intro l hl
        rcases List.mem_append.mp hl with hold | hnew
        · obtain ⟨hle, hlength, hend⟩ := h.inside l hold
          refine ⟨hle, hlength, ?_⟩
          dsimp only
          omega
        · obtain ⟨hle, hlength, hend⟩ := hlink l (Option.mem_toList.mp hnew)
          refine ⟨?_, hlength, ?_⟩
          · omega
          · dsimp only
            omega
      · show (s.2 ++ link.toList).Pairwise _
        rw [List.pairwise_append]
        refine ⟨h.sorted, ?_, ?_⟩
        · cases link with
          | none => exact .nil
          | some l => exact List.pairwise_singleton _ _
        · intro a ha b hb
          have hle := (h.inside a ha).2.2
          have hoffset' := (hlink b (Option.mem_toList.mp hb)).1
          omega
  · cases hstep

theorem linksBefore_start : LinksBefore text.length (startScan text false, []) where
  plain := ⟨rfl, rfl, le_rfl, Nat.zero_le _⟩
  inside := by simp
  sorted := .nil

theorem recognizedLinks_spec (hg : g.Valid text) (flags : ParseFlags) :
    ∃ n links, recognizedLinks g flags text n = some links ∧
      (∀ l ∈ links, 0 ≤ l.offset ∧ 0 < l.length ∧ l.offset + l.length ≤ text.length) ∧
      links.Pairwise fun a b => a.offset + a.length ≤ b.offset := by
  obtain ⟨n, links, hrun⟩ := Loops.exists_iterate (I := LinksBefore text.length)
    (recognizeStep g flags text) Nat.lt_wfRel.wf
    (fun s => text.length - s.1.matchOffset)
    (fun s t hs hstep => recognizeStep_again hg hs hstep) linksBefore_start
  have hlinks := Loops.iterate_rule (I := LinksBefore text.length)
    (Q := fun links : List EntityInText => (∀ l ∈ links, 0 ≤ l.offset ∧ 0 < l.length ∧
      l.offset + l.length ≤ text.length) ∧
      links.Pairwise fun a b => a.offset + a.length ≤ b.offset)
    (fun s t hs hstep => (recognizeStep_again hg hs hstep).1)
    (fun s r hs hstep => by
      have hr : r = s.2 := by
        rw [recognizeStep] at hstep
        split at hstep
        · split at hstep
          · cases hstep
            rfl
          · cases hstep
        · cases hstep
          rfl
      subst hr
      refine ⟨?_, hs.sorted⟩
      intro l hl
      obtain ⟨hle, hlength, hend⟩ := hs.inside l hl
      have hoffset := hs.plain.offset
      have hbound := hs.plain.matchOffset
      exact ⟨hle, hlength, by omega⟩)
    linksBefore_start hrun
  exact ⟨n, links, hrun, hlinks⟩

theorem iterate_parseStep (g : LinkSyntax) (flags : ParseFlags) (text : List QChar) (count n : Nat)
    (s : Scan) (m : Merged) (links : List EntityInText) :
    Loops.iterate (parseStep g flags text count) n
        (s, links.foldl (fun m link => addLink count link m) m) =
      (Loops.iterate (recognizeStep g flags text) n (s, links)).map
        fun links => links.foldl (fun m link => addLink count link m) m := by
  induction n generalizing s links with
  | zero => rfl
  | succ n ih =>
    rw [Loops.iterate, Loops.iterate, parseStep, recognizeStep]
    dsimp only
    by_cases hlt : s.offset < text.length
    · rw [if_pos hlt, if_pos hlt]
      cases hnext : nextLink g flags text s with
      | none => rfl
      | some next =>
        obtain ⟨scan, link⟩ := next
        cases link with
        | none =>
          have hrest := ih scan links
          simpa using hrest
        | some link =>
          have hrest := ih scan (links ++ [link])
          rw [List.foldl_append] at hrest
          simpa using hrest
    · rw [if_neg hlt, if_neg hlt]
      rfl

theorem parseEntities_eq (n : Nat) (t : TextWithEntities) :
    parseEntities g flags false n t = (recognizedLinks g flags t.text n).map fun links =>
      { t with entities := (links.foldl (fun m link => addLink t.entities.length link m)
          ⟨0, 0, t.entities, []⟩).finish t.entities.length } := by
  have hrun := iterate_parseStep g flags t.text t.entities.length n
    (startScan t.text false) ⟨0, 0, t.entities, []⟩ []
  rw [List.foldl_nil] at hrun
  rw [parseEntities, recognizedLinks, hrun, Option.map_map]
  rfl

/-! ## Merging -/

variable {E L : List EntityInText} {link : EntityInText} {m : Merged}

/-- The existing entities up to an index are taken. -/
structure Merged.Taken (m : Merged) (E : List EntityInText) : Prop where
  entities : ∃ links, m.entities = E ++ links
  index : m.existingEntityIndex ≤ E.length
  newEntities : m.newEntities = E.take m.existingEntityIndex

theorem takeExisting_spec (h : m.Taken E) (lnkStart : Int) :
    (takeExisting E.length lnkStart m).Taken E ∧
      m.existingEntityIndex ≤ (takeExisting E.length lnkStart m).existingEntityIndex := by
  induction hk : E.length - m.existingEntityIndex using Nat.strong_induction_on generalizing m with
  | _ k ih =>
    rw [takeExisting]
    split
    next hlt =>
      split
      · exact ⟨h, le_rfl⟩
      next entity hentity =>
        split
        next hle =>
          obtain ⟨links, hlinks⟩ := h.entities
          rw [hlinks, List.getElem?_append_left hlt] at hentity
          have htaken : ({ m with
              existingEntityIndex := m.existingEntityIndex + 1
              existingEntityEnd := max m.existingEntityEnd (entity.offset + entity.length)
              newEntities := m.newEntities ++ [entity] } : Merged).Taken E :=
            ⟨h.entities, hlt, by
              dsimp only
              rw [h.newEntities, List.take_add_one, hentity]
              rfl⟩
          obtain ⟨hspec, hindex⟩ := ih _ (by dsimp only; omega) htaken rfl
          dsimp only at hindex
          exact ⟨hspec, by omega⟩
        · exact ⟨h, le_rfl⟩
    · exact ⟨h, le_rfl⟩

theorem addLink_taken (h : m.Taken E) (link : EntityInText) :
    (addLink E.length link m).Taken E ∧
      m.existingEntityIndex ≤ (addLink E.length link m).existingEntityIndex := by
  obtain ⟨⟨hentities, hindex, hnew⟩, hmono⟩ := takeExisting_spec h link.offset
  rw [addLink]
  split
  · refine ⟨⟨?_, hindex, hnew⟩, hmono⟩
    obtain ⟨links, hlinks⟩ := hentities
    exact ⟨links ++ [link], by rw [hlinks, List.append_assoc]⟩
  · exact ⟨⟨hentities, hindex, hnew⟩, hmono⟩

/-- A link behind the start of the first entity makes the loop take that. -/
theorem addLink_takes {first : EntityInText} {rest : List EntityInText}
    (h : m.Taken (first :: rest)) (hle : first.offset ≤ link.offset) :
    0 < (addLink (first :: rest).length link m).existingEntityIndex := by
  obtain ⟨htaken, hmono⟩ := addLink_taken h link
  by_cases hzero : m.existingEntityIndex = 0
  · have hindex : (addLink (first :: rest).length link m).existingEntityIndex =
        (takeExisting (first :: rest).length link.offset m).existingEntityIndex := by
      rw [addLink]
      split <;> rfl
    obtain ⟨links, hlinks⟩ := h.entities
    have hfirst : m.entities[m.existingEntityIndex]? = some first := by
      rw [hlinks, hzero]
      rfl
    rw [hindex, takeExisting]
    simp only [hzero] at hfirst ⊢
    simp only [hfirst, hle, List.length_cons, Nat.zero_lt_succ, dite_true, if_true]
    have hone : ({ m with
        existingEntityIndex := 1
        existingEntityEnd := max m.existingEntityEnd (first.offset + first.length)
        newEntities := m.newEntities ++ [first] } : Merged).Taken (first :: rest) :=
      ⟨h.entities, by simp, by
        dsimp only
        rw [h.newEntities, hzero]
        rfl⟩
    have hspec := takeExisting_spec hone link.offset
    simp only [List.length_cons, Nat.zero_add] at hspec ⊢
    omega
  · omega

theorem addLink_appends {links : List EntityInText} (hbefore : ∀ e ∈ E, link.offset < e.offset)
    (hoffset : 0 ≤ link.offset) :
    addLink E.length link ⟨0, 0, E ++ links, []⟩ = ⟨0, 0, E ++ (links ++ [link]), []⟩ := by
  have hnone : takeExisting E.length link.offset ⟨0, 0, E ++ links, []⟩ =
      ⟨0, 0, E ++ links, []⟩ := by
    rw [takeExisting]
    cases E with
    | nil => rfl
    | cons first rest =>
      rw [List.forall_mem_cons] at hbefore
      have hnot : ¬ first.offset ≤ link.offset := by omega
      simp [hnot]
  rw [addLink, hnone]
  dsimp only
  rw [if_pos hoffset, List.append_assoc]

/-- The links are lost if one of them is behind the start of an entity. -/
theorem finish_foldl (hsorted : E.Pairwise fun a b => a.offset ≤ b.offset)
    (hlinks : ∀ l ∈ L, 0 ≤ l.offset) :
    ((L.foldl (fun m link => addLink E.length link m) ⟨0, 0, E, []⟩).finish E.length = E ∧
        ∃ l ∈ L, ∃ e ∈ E, e.offset ≤ l.offset) ∨
      ((L.foldl (fun m link => addLink E.length link m) ⟨0, 0, E, []⟩).finish E.length = E ++ L ∧
        ∀ l ∈ L, ∀ e ∈ E, l.offset < e.offset) := by
  have hfinish : ∀ m : Merged, m.Taken E → 0 < m.existingEntityIndex → E ≠ [] →
      m.finish E.length = E := by
    intro m hm hpos hne
    obtain ⟨links, hentities⟩ := hm.entities
    have hnew : m.newEntities ≠ [] := by
      rw [hm.newEntities]
      intro hnil
      rcases List.take_eq_nil_iff.mp hnil with hzero | hnil
      · omega
      · exact hne hnil
    rw [Merged.finish, if_pos hnew, hm.newEntities, hentities, List.take_left' rfl,
      List.take_append_drop]
  by_cases hsome : ∃ l ∈ L, ∃ e ∈ E, e.offset ≤ l.offset
  · left
    refine ⟨?_, hsome⟩
    obtain ⟨l, hl, e, he, hle⟩ := hsome
    cases E with
    | nil => cases he
    | cons first rest =>
      have hfirst : first.offset ≤ l.offset := by
        rcases List.mem_cons.mp he with rfl | hrest
        · exact hle
        · exact ((List.pairwise_cons.mp hsorted).1 e hrest).trans hle
      have hrun : ∀ (L : List EntityInText) (m : Merged), m.Taken (first :: rest) →
          (L.foldl (fun m link => addLink (first :: rest).length link m) m).Taken
              (first :: rest) ∧
            (0 < m.existingEntityIndex ∨ (∃ l ∈ L, first.offset ≤ l.offset) →
              0 < (L.foldl (fun m link => addLink (first :: rest).length link m)
                m).existingEntityIndex) := by
        intro L
        induction L with
        | nil =>
          intro m hm
          exact ⟨hm, by simp⟩
        | cons link L ih =>
          intro m hm
          obtain ⟨htaken, hmono⟩ := addLink_taken hm link
          obtain ⟨hrest, hpos⟩ := ih _ htaken
          refine ⟨hrest, ?_⟩
          intro hcases
          apply hpos
          rcases hcases with hindex | ⟨l, hl, hle⟩
          · left
            omega
          · rcases List.mem_cons.mp hl with rfl | hl
            · exact .inl (addLink_takes hm hle)
            · exact .inr ⟨l, hl, hle⟩
      obtain ⟨htaken, hpos⟩ := hrun L ⟨0, 0, first :: rest, []⟩ ⟨⟨[], by simp⟩, by simp, rfl⟩
      exact hfinish _ htaken (hpos (.inr ⟨l, hl, hfirst⟩)) (List.cons_ne_nil _ _)
  · right
    have hbefore : ∀ l ∈ L, ∀ e ∈ E, l.offset < e.offset := by
      intro l hl e he
      by_contra hnot
      exact hsome ⟨l, hl, e, he, by omega⟩
    refine ⟨?_, hbefore⟩
    have hrun : ∀ (L links : List EntityInText), (∀ l ∈ L, 0 ≤ l.offset) →
        (∀ l ∈ L, ∀ e ∈ E, l.offset < e.offset) →
        L.foldl (fun m link => addLink E.length link m) ⟨0, 0, E ++ links, []⟩ =
          ⟨0, 0, E ++ (links ++ L), []⟩ := by
      intro L
      induction L with
      | nil =>
        intro links _ _
        rw [List.foldl_nil, List.append_nil]
      | cons link L ih =>
        intro links hnonneg hbefore
        rw [List.forall_mem_cons] at hnonneg hbefore
        rw [List.foldl_cons, addLink_appends hbefore.1 hnonneg.1,
          ih (links ++ [link]) hnonneg.2 hbefore.2, List.append_assoc links]
        rfl
    have hall := hrun L [] hlinks hbefore
    rw [List.append_nil] at hall
    rw [hall]
    rfl

/-! ## The result -/

/-- Two entities have no character in common. -/
def Apart (a b : EntityInText) : Prop :=
  a.offset + a.length ≤ b.offset ∨ b.offset + b.length ≤ a.offset

/-- What parsing should make of the existing entities and the recognized links. -/
structure Parsed (existing links : List EntityInText) (size : Nat)
    (result : List EntityInText) : Prop where
  sorted : result.Pairwise fun a b => a.offset ≤ b.offset
  apart : result.Pairwise Apart
  inside : ∀ e ∈ result, 0 ≤ e.offset ∧ 0 ≤ e.length ∧ e.offset + e.length ≤ size
  kept : ∀ e ∈ existing, e ∈ result
  recognized : ∀ l ∈ links, (∀ e ∈ existing, Apart l e) → l ∈ result

theorem parsed_of_valid {size : Nat} {links : List EntityInText}
    (hinside : ∀ e ∈ E, 0 ≤ e.offset ∧ 0 ≤ e.length ∧ e.offset + e.length ≤ size)
    (hsorted : E.Pairwise fun a b => a.offset + a.length ≤ b.offset)
    (hexisting : ∀ e ∈ L, e ∈ E)
    (hlinks : ∀ l ∈ links, (∀ e ∈ L, Apart l e) → l ∈ E) : Parsed L links size E where
  sorted := by
    refine hsorted.imp_of_mem ?_
    intro a b ha _ hab
    have hlength := (hinside a ha).2.1
    omega
  apart := hsorted.imp fun hab => .inl hab
  inside := hinside
  kept := hexisting
  recognized := hlinks

/-- The hashtag of `"x #ab"`, behind its separator. -/
def hashtagBehindX (_ : List QChar) (offset : Nat) : Option Match :=
  if offset ≤ 1 then some ⟨1, 5, fun n => if n = 1 then [0x20] else []⟩ else none

theorem hashtagBehindX_valid :
    (tagSyntax (fun _ _ => none) hashtagBehindX).Valid [0x78, 0x20, 0x23, 0x61, 0x62] := by
  apply tagSyntax_valid
  · intro offset m hm
    cases hm
  · intro offset m hm
    rw [hashtagBehindX] at hm
    split at hm
    next hle =>
      cases hm
      exact ⟨hle, by decide, by decide⟩
    · cases hm

end TelegramClient.Text
