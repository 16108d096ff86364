import TelegramClient.Text.Cleaning

/-! What the two loops of `ApplyServerCleaning` do to a text and to its entities. -/

namespace TelegramClient.Text

open Rewriting

/-- What the first loop replaces a character by. -/
def tabbed (c : QChar) : List QChar :=
  if c = 0x09 then [0x20, 0x20] else [c]

/-- What the second loop replaces a character by. -/
def returned (c : QChar) : List QChar :=
  if c = 0x0D then [] else if chReplacedBySpace c then [0x20] else [c]

theorem flatMap_returned (c : QChar) : (tabbed c).flatMap returned = cleaned c := by
  have hspace : returned 0x20 = [0x20] := by decide
  by_cases htab : c = 0x09
  · simp [tabbed, cleaned, htab, hspace]
  · simp [tabbed, cleaned, htab, returned]

variable {A P G S R D Q T : List QChar} {c : QChar} {f : QChar → List QChar}
  {raws : List EntityInText} {result : TextWithEntities}

theorem length_flatMap_one (h : ∀ a ∈ Q, (f a).length = 1) : (Q.flatMap f).length = Q.length := by
  induction Q with
  | nil => rfl
  | cons a Q ih =>
    rw [List.forall_mem_cons] at h
    rw [List.flatMap_cons, List.length_append, h.1, ih h.2, List.length_cons, Nat.add_comm]

/-! ## Tabs -/

theorem flatMap_tabbed (h : 0x09 ∉ P) : P.flatMap tabbed = P := by
  induction P with
  | nil => rfl
  | cons a P ih =>
    rw [List.mem_cons, not_or] at h
    rw [List.flatMap_cons, ih h.2, tabbed, if_neg (Ne.symm h.1), List.singleton_append]

theorem length_flatMap_tabbed (A : List QChar) :
    (A.flatMap tabbed).length = A.length + A.count 0x09 := by
  induction A with
  | nil => rfl
  | cons a A ih =>
    by_cases ha : a = 0x09
    · subst ha
      simp only [List.flatMap_cons, tabbed, if_true, List.length_append, List.length_cons,
        List.length_nil, List.count_cons_self, ih]
      omega
    · simp only [List.flatMap_cons, tabbed, if_neg ha, List.length_append, List.length_cons,
        List.length_nil, List.count_cons_of_ne ha, ih]
      omega

theorem place_tabbed_append : place tabbed (A ++ S) A.length = A.length + A.count 0x09 := by
  rw [place, List.take_left' rfl, length_flatMap_tabbed]

theorem le_place_tabbed (T : List QChar) (q : Nat) (hq : q ≤ T.length) : q ≤ place tabbed T q := by
  rw [place, length_flatMap_tabbed, List.length_take, Nat.min_eq_left hq]
  omega

theorem tabbed_part (h : 0x09 ∉ P) (q : Nat) (hA : A.length ≤ q) (hq : q < A.length + P.length) :
    ∃ a, (A ++ P ++ S)[q]? = some a ∧ (tabbed a).length = 1 ∧ a ≠ 0x09 := by
  obtain ⟨k, rfl⟩ := Nat.exists_eq_add_of_le hA
  have hk : k < P.length := by omega
  have hne : P[k] ≠ 0x09 := by
    intro heq
    exact h (heq ▸ List.getElem_mem hk)
  refine ⟨P[k], ?_, by simp [tabbed, hne], hne⟩
  rw [List.append_assoc, List.getElem?_append_right (by omega), Nat.add_sub_cancel_left,
    List.getElem?_append_left hk, List.getElem?_eq_getElem hk]

theorem moveStringPart_text_right (htext : result.text = A ++ P ++ G ++ R) :
    (moveStringPart result (A.length + G.length) A.length P.length).text =
      A ++ (P ++ G).take G.length ++ P ++ R := by
  rw [moveStringPart]
  by_cases hP : P.length = 0
  · obtain rfl := List.length_eq_zero_iff.mp hP
    simp [htext]
  · rw [if_neg hP]
    by_cases hG : G.length = 0
    · obtain rfl := List.length_eq_zero_iff.mp hG
      simp [htext]
    · rw [if_pos (by omega)]
      simp only [htext, moveChars_right]

theorem moveStringPart_entities_right
    (hsorted : raws.Pairwise fun a b => 0 < b.length → a.offset ≤ b.offset) (hP : 0x09 ∉ P)
    (hG : G.length = A.count 0x09) (hpos : 0 < G.length)
    (h : List.Forall₂ (Track (MovedRight tabbed 0x09 (A ++ P ++ S) (A.length + P.length))
      (A ++ P ++ S).length) raws result.entities) :
    List.Forall₂ (Track (MovedRight tabbed 0x09 (A ++ P ++ S) A.length) (A ++ P ++ S).length) raws
      (moveStringPart result (A.length + G.length) A.length P.length).entities := by
  have hplace : place tabbed (A ++ P ++ S) A.length = A.length + G.length := by
    rw [List.append_assoc, place_tabbed_append, hG]
  rw [moveStringPart]
  by_cases hzero : P.length = 0
  · rw [if_pos hzero]
    simpa [hzero] using h
  · rw [if_neg hzero, if_pos (by omega)]
    apply moveEntities_forall h hsorted
    · rintro raw entity ⟨-, s, e, hs, -, -, -, hmoved⟩
      have hunmoved := hmoved.unmoved
      have hge := hmoved.moved
      omega
    · intro raw entity htrack hlength
      exact htrack.stays hlength fun s hs hmoved =>
        hmoved.stays (by omega) (le_place_tabbed _) hs
    · intro raw entity htrack hge
      exact htrack.imp fun s e _ hmoved => hmoved.behind (by omega) (by omega)
    · intro raw entity htrack hlt
      apply htrack.part
      intro s e he hmoved
      have hpart := hmoved.part he (le_place_tabbed _) (by omega)
        (show A.length < A.length + P.length by omega) (tabbed_part hP)
      rwa [hplace, Nat.add_sub_cancel_left] at hpart

theorem writeChars_spaces {X : List QChar} {n : Nat} (hX : X.length = n + 1) :
    writeChars (A ++ [c] ++ X ++ R) (A.length + n) [0x20, 0x20] =
      A ++ (c :: X).take n ++ [0x20, 0x20] ++ R := by
  have htake : (A ++ [c] ++ X ++ R).take (A.length + n) = A ++ (c :: X).take n := by
    rw [List.append_assoc, List.append_assoc, List.take_length_add_append, List.singleton_append,
      ← List.cons_append, List.take_append_of_le_length]
    simp only [List.length_cons]
    omega
  have hdrop : (A ++ [c] ++ X ++ R).drop (A.length + n + 2) = R := by
    apply List.drop_left'
    simp only [List.length_append, List.length_singleton]
    omega
  rw [writeChars, htake]
  exact congrArg _ hdrop

/-- The loop has the text behind `A ++ P` in its place. -/
theorem replaceTabs_spec (hsorted : raws.Pairwise fun a b => 0 < b.length → a.offset ≤ b.offset)
    (hP : 0x09 ∉ P) (hG : G.length = A.count 0x09)
    (htext : result.text = A ++ P ++ G ++ S.flatMap tabbed)
    (h : List.Forall₂ (Track (MovedRight tabbed 0x09 (A ++ P ++ S) (A.length + P.length))
      (A ++ P ++ S).length) raws result.entities) :
    (replaceTabs A.length (A.length + P.length) (A.length + P.length + G.length) result).text =
        (A ++ P ++ S).flatMap tabbed ∧
      List.Forall₂ (Track (MovedRight tabbed 0x09 (A ++ P ++ S) 0) (A ++ P ++ S).length) raws
        (replaceTabs A.length (A.length + P.length) (A.length + P.length + G.length)
          result).entities := by
  induction A using List.reverseRecOn generalizing P G S result with
  | nil =>
    obtain rfl : G = [] := by simpa using hG
    rw [List.length_nil, replaceTabs]
    constructor
    · simp [htext, flatMap_tabbed hP]
    · refine h.imp fun raw entity htrack => htrack.imp fun s e he hmoved => ?_
      apply hmoved.first
      intro q hq
      have hpart := @tabbed_part [] P S hP q (Nat.zero_le q) (by simpa using hq)
      simpa using hpart
  | append_singleton A c ih =>
    have hchar : result.text[A.length]? = some c := by
      simp [htext]
    have hA : (A ++ [c]).length = A.length + 1 := by simp
    by_cases hc : c = 0x09
    · subst hc
      -- the part behind the tab goes to its place, and the tab becomes two spaces
      obtain ⟨n, hn⟩ : ∃ n, G.length = n + 1 ∧ n = A.count 0x09 :=
        ⟨_, by rw [hG, List.count_append, List.count_singleton_self], rfl⟩
      have htext₁ := moveStringPart_text_right htext
      have hentities₁ := moveStringPart_entities_right hsorted hP hG (by omega) h
      have hstep : replaceTabs (A ++ [0x09]).length ((A ++ [0x09]).length + P.length)
          ((A ++ [0x09]).length + P.length + G.length) result =
          replaceTabs A.length A.length (A.length + n)
            { moveStringPart result ((A ++ [0x09]).length + G.length) (A ++ [0x09]).length
                P.length with
              text := writeChars (moveStringPart result ((A ++ [0x09]).length + G.length)
                (A ++ [0x09]).length P.length).text (A.length + n) [0x20, 0x20] } := by
        rw [hA, replaceTabs, hchar, if_pos rfl]
        have hmove : A.length + 1 + P.length - (A.length + 1) = P.length := by omega
        have hto : A.length + 1 + P.length + G.length - P.length = A.length + 1 + G.length := by
          omega
        have hto' : A.length + 1 + G.length - 2 = A.length + n := by omega
        simp only [hmove, hto, hto']
      have hX : ((P ++ G).take G.length).length = n + 1 := by
        rw [List.length_take, List.length_append]
        omega
      have hT : A ++ [0x09] ++ P ++ S = A ++ [] ++ 0x09 :: (P ++ S) := by simp
      have htab : (A ++ [] ++ 0x09 :: (P ++ S))[A.length]? = some 0x09 := by simp
      rw [hT, hA] at hentities₁
      have hrest := @ih [] ((0x09 :: (P ++ G).take G.length).take n) (0x09 :: (P ++ S))
        { moveStringPart result ((A ++ [0x09]).length + G.length) (A ++ [0x09]).length P.length with
          text := writeChars (moveStringPart result ((A ++ [0x09]).length + G.length)
            (A ++ [0x09]).length P.length).text (A.length + n) [0x20, 0x20] }
        (by simp)
        (by
          rw [List.length_take, List.length_cons, hX, ← hn.2]
          omega)
        (by
          rw [htext₁, List.append_assoc _ P, writeChars_spaces hX]
          simp [List.flatMap_cons, tabbed, flatMap_tabbed hP])
        (by
          rw [hA]
          exact hentities₁.imp fun raw entity htrack =>
            htrack.imp fun s e _ hmoved =>
              hmoved.replaced htab (le_place_tabbed _ _ (by simp)))
      have hlength : ((0x09 :: (P ++ G).take G.length).take n).length = n := by
        rw [List.length_take, List.length_cons, hX]
        omega
      rw [hlength] at hrest
      rw [hstep, hT]
      exact hrest
    · have hne : ¬ some c = some 0x09 := by simpa using hc
      have hP' : 0x09 ∉ c :: P := by simp [hP, Ne.symm hc]
      have hT : A ++ [c] ++ P ++ S = A ++ (c :: P) ++ S := by simp
      have hlen : A.length + 1 + P.length = A.length + (c :: P).length := by
        rw [List.length_cons]
        omega
      rw [hA, hlen, hT] at h
      have hrest := @ih (c :: P) G S result hP' (by simpa [List.count_append, hc] using hG)
        (by simpa using htext) h
      rw [hA, replaceTabs, hchar, if_neg hne, hlen, hT]
      exact hrest

/-! ## Returns -/

theorem returned_length (h : c ≠ 0x0D) : (returned c).length = 1 := by
  rw [returned, if_neg h]
  split <;> rfl

theorem length_flatMap_returned (h : 0x0D ∉ Q) : (Q.flatMap returned).length = Q.length := by
  apply length_flatMap_one
  intro a ha
  apply returned_length
  rintro rfl
  exact h ha

theorem place_returned_le (T : List QChar) (q : Nat) : place returned T q ≤ q := by
  induction q with
  | zero => rw [place_zero]
  | succ q ih =>
    by_cases hq : q < T.length
    · have hone : (returned T[q]).length ≤ 1 := by
        rw [returned]
        split_ifs <;> simp
      rw [place_add_one (List.getElem?_eq_getElem hq)]
      omega
    · have hmono : place returned T (q + 1) = place returned T q := by
        rw [place, place, List.take_of_length_le (by omega), List.take_of_length_le (by omega)]
      omega

theorem returned_part (h : 0x0D ∉ P) (q : Nat) (hA : A.length ≤ q)
    (hq : q < A.length + P.length) :
    ∃ a, (A ++ P ++ S)[q]? = some a ∧ (returned a).length = 1 ∧ a ≠ 0x0D := by
  obtain ⟨k, rfl⟩ := Nat.exists_eq_add_of_le hA
  have hk : k < P.length := by omega
  have hne : P[k] ≠ 0x0D := by
    intro heq
    exact h (heq ▸ List.getElem_mem hk)
  refine ⟨P[k], ?_, returned_length hne, hne⟩
  rw [List.append_assoc, List.getElem?_append_right (by omega), Nat.add_sub_cancel_left,
    List.getElem?_append_left hk, List.getElem?_eq_getElem hk]

theorem moveStringPart_text_left (htext : result.text = D ++ G ++ P ++ R) :
    (moveStringPart result D.length (D.length + G.length) P.length).text =
      D ++ P ++ (G ++ P).drop P.length ++ R := by
  rw [moveStringPart]
  by_cases hP : P.length = 0
  · obtain rfl := List.length_eq_zero_iff.mp hP
    simp [htext]
  · rw [if_neg hP]
    by_cases hG : G.length = 0
    · obtain rfl := List.length_eq_zero_iff.mp hG
      simp [htext]
    · rw [if_pos (by omega)]
      simp only [htext, moveChars_left]

theorem movedEntity_self {from_ count : Nat} {entity : EntityInText} :
    movedEntity from_ from_ count entity = entity := by
  rw [movedEntity]
  simp [EntityInText.extendToLeft, EntityInText.shrinkFromRight]

theorem moveEntities_self {from_ count : Nat} {entities : List EntityInText} :
    moveEntities from_ from_ count entities = entities := by
  induction entities with
  | nil => rfl
  | cons entity entities ih =>
    rw [moveEntities, movedEntity_self, ih]
    split <;> rfl

theorem moveStringPart_entities_left {X : List QChar}
    (hsorted : raws.Pairwise fun a b => 0 < b.length → a.offset ≤ b.offset) (hQ : 0x0D ∉ Q)
    (h : List.Forall₂ (Track (MovedLeft returned 0x0D (X ++ Q ++ R) X.length)
      (X ++ Q ++ R).length) raws result.entities) :
    List.Forall₂ (Track (MovedLeft returned 0x0D (X ++ Q ++ R) (X.length + Q.length))
        (X ++ Q ++ R).length) raws
      (moveStringPart result (X.flatMap returned).length X.length Q.length).entities := by
  have hplace : place returned (X ++ Q ++ R) X.length = (X.flatMap returned).length := by
    rw [place, List.append_assoc, List.take_left' rfl]
  have hmoveAll : (moveStringPart result (X.flatMap returned).length X.length
      Q.length).entities = if Q.length = 0 then result.entities else
        moveEntities (X.flatMap returned).length X.length Q.length result.entities := by
    rw [moveStringPart]
    split_ifs with hzero hne
    · rfl
    · rfl
    · rw [not_not.mp hne, moveEntities_self]
  rw [hmoveAll]
  by_cases hzero : Q.length = 0
  · rw [if_pos hzero]
    simpa [hzero] using h
  · rw [if_neg hzero]
    apply moveEntities_forall h hsorted
    · rintro raw entity ⟨-, s, e, hs, -, -, -, hmoved⟩
      have hunmoved := hmoved.unmoved
      have hle := hmoved.moved
      omega
    · intro raw entity htrack hlength
      exact htrack.stays hlength fun s _ hmoved => hmoved.stays (by omega)
    · intro raw entity htrack hge
      exact htrack.imp fun s e _ hmoved => hmoved.behind (by omega) (by omega)
    · intro raw entity htrack hlt
      apply htrack.part
      intro s e he hmoved
      have hpart := hmoved.part (place_returned_le _) (by omega)
        (show X.length < X.length + Q.length by omega) (returned_part hQ)
      rwa [hplace, Nat.add_sub_cancel_left] at hpart

/-- The loop has the text before `Q` in its place. -/
theorem removeReturns_spec {X : List QChar}
    (hsorted : raws.Pairwise fun a b => 0 < b.length → a.offset ≤ b.offset) (hQ : 0x0D ∉ Q)
    (hX : (X.flatMap returned).length + G.length = X.length)
    (htext : result.text = X.flatMap returned ++ G ++ Q.flatMap returned ++ R)
    (h : List.Forall₂ (Track (MovedLeft returned 0x0D (X ++ Q ++ R) X.length)
      (X ++ Q ++ R).length) raws result.entities) :
    ∃ X' Q' G' result', X ++ Q ++ R = X' ++ Q' ∧ 0x0D ∉ Q' ∧
      (X'.flatMap returned).length + G'.length = X'.length ∧
      removeReturns R.length (X.length + Q.length) (X.flatMap returned).length X.length result =
        ((X'.flatMap returned).length, X'.length, result') ∧
      result'.text = X'.flatMap returned ++ G' ++ Q'.flatMap returned ∧
      List.Forall₂ (Track (MovedLeft returned 0x0D (X ++ Q ++ R) X'.length)
        (X ++ Q ++ R).length) raws result'.entities := by
  induction R generalizing X Q G result with
  | nil =>
    refine ⟨X, Q, G, result, by simp, hQ, hX, rfl, by simpa using htext, h⟩
  | cons c R ih =>
    have hlength := length_flatMap_returned hQ
    have hchar : result.text[X.length + Q.length]? = some c := by
      rw [htext, List.getElem?_append_right (by simp only [List.length_append]; omega)]
      simp only [List.length_append]
      rw [show X.length + Q.length - ((X.flatMap returned).length + G.length +
        (Q.flatMap returned).length) = 0 by omega]
      rfl
    by_cases hc : c = 0x0D
    · subst hc
      -- the part before the return goes to its place
      have hT : X ++ Q ++ 0x0D :: R = (X ++ Q ++ [0x0D]) ++ [] ++ R := by simp
      have hhere : (X ++ Q ++ 0x0D :: R)[X.length + Q.length]? = some 0x0D := by
        rw [← List.length_append]
        simp
      have hflat : (X ++ Q ++ [0x0D]).flatMap returned =
          X.flatMap returned ++ Q.flatMap returned := by
        simp [List.flatMap_append, returned]
      have htext₁ := moveStringPart_text_left htext
      have hentities₁ := (moveStringPart_entities_left hsorted hQ h).imp
        fun raw entity htrack => htrack.imp fun s e _ hmoved => hmoved.replaced hhere
      rw [hX, hlength] at htext₁
      rw [hT] at hentities₁
      have hstep : removeReturns (R.length + 1) (X.length + Q.length) (X.flatMap returned).length
          X.length result = removeReturns R.length ((X ++ Q ++ [0x0D]).length + ([] : List QChar).length)
            ((X ++ Q ++ [0x0D]).flatMap returned).length (X ++ Q ++ [0x0D]).length
            (moveStringPart result (X.flatMap returned).length X.length Q.length) := by
        rw [removeReturns, hchar, hflat]
        simp only [if_true, Nat.add_sub_cancel_left, List.length_append, hlength,
          List.length_singleton, List.length_nil, Nat.add_zero]
      obtain ⟨X', Q', G', result', hsplit, hQ', hX', hrun, htext', hentities'⟩ :=
        @ih ((G ++ Q.flatMap returned).drop Q.length ++ [0x0D]) []
          (moveStringPart result (X.flatMap returned).length X.length Q.length)
          (X ++ Q ++ [0x0D]) (by simp)
          (by
            rw [hflat]
            simp only [List.length_append, List.length_drop, List.length_singleton, hlength]
            omega)
          (by
            rw [htext₁, hflat]
            simp)
          (by
            have hlen : (X ++ Q ++ [0x0D]).length = X.length + Q.length + 1 := by
              simp [Nat.add_assoc]
            rw [hlen]
            exact hentities₁)
      rw [hT]
      exact ⟨X', Q', G', result', hsplit, hQ', hX', by rw [List.length_cons, hstep, hrun], htext',
        hentities'⟩
    · -- the character stays in the part, as it is or as a space
      have hT : X ++ Q ++ c :: R = X ++ (Q ++ [c]) ++ R := by simp
      have hQ' : 0x0D ∉ Q ++ [c] := by simp [hQ, Ne.symm hc]
      have hlen : X.length + Q.length + 1 = X.length + (Q ++ [c]).length := by simp [Nat.add_assoc]
      obtain ⟨result₁, hresult₁, hentities₁, htext₁⟩ : ∃ result₁,
          removeReturns (R.length + 1) (X.length + Q.length) (X.flatMap returned).length X.length
            result = removeReturns R.length (X.length + (Q ++ [c]).length)
              (X.flatMap returned).length X.length result₁ ∧
          result₁.entities = result.entities ∧
          result₁.text = X.flatMap returned ++ G ++ (Q ++ [c]).flatMap returned ++ R := by
        rw [removeReturns, hchar, ← hlen]
        simp only [if_neg hc]
        by_cases hspace : chReplacedBySpace c = true
        · rw [if_pos hspace]
          refine ⟨_, rfl, rfl, ?_⟩
          have hplace : X.length + Q.length =
              (X.flatMap returned ++ G ++ Q.flatMap returned).length := by
            simp only [List.length_append]
            omega
          dsimp only
          rw [htext, hplace, List.set_append_right _ _ (Nat.le_refl _), Nat.sub_self]
          simp [returned, hc, hspace]
        · rw [if_neg hspace]
          refine ⟨_, rfl, rfl, ?_⟩
          rw [htext]
          simp [returned, hc, hspace]
      rw [hT] at h ⊢
      rw [List.length_cons, hresult₁]
      exact ih hQ' hX htext₁ (by rw [hentities₁]; exact h)

/-! ## The two parts -/

/-- What the loops need: entities with characters are in order. -/
structure TextWithEntities.Loose (t : TextWithEntities) : Prop where
  inside : ∀ entity ∈ t.entities, 0 ≤ entity.offset ∧ 0 ≤ entity.length ∧
    entity.offset + entity.length ≤ t.text.length
  sorted : t.entities.Pairwise fun a b => 0 < b.length → a.offset ≤ b.offset

theorem TextWithEntities.Valid.loose {t : TextWithEntities} (h : t.Valid) : t.Loose where
  inside := h.inside
  sorted := by
    refine h.sorted.imp_of_mem ?_
    intro a b ha _ hab _
    have hlength := (h.inside a ha).2.1
    omega

theorem track_self {M : Nat → Nat → EntityInText → Prop} {t : TextWithEntities} (h : t.Loose)
    (hM : ∀ (s e : Nat) (entity : EntityInText), entity.offset = s →
      entity.offset + entity.length = e → s ≤ e → e ≤ t.text.length → M s e entity) :
    List.Forall₂ (Track M t.text.length) t.entities t.entities := by
  rw [List.forall₂_same]
  intro entity hentity
  obtain ⟨hoffset, hlength, hend⟩ := h.inside entity hentity
  obtain ⟨s, hs⟩ := Int.eq_ofNat_of_zero_le hoffset
  obtain ⟨e, he⟩ := Int.eq_ofNat_of_zero_le (show 0 ≤ entity.offset + entity.length by omega)
  exact ⟨⟨rfl, rfl⟩, s, e, hs, he, by omega, by omega,
    hM s e entity hs he (by omega) (by omega)⟩

theorem cleanTabs_spec {t : TextWithEntities} (h : t.Loose) :
    (cleanTabs t).text = t.text.flatMap tabbed ∧
      List.Forall₂ (Track (MovedRight tabbed 0x09 t.text 0) t.text.length) t.entities
        (cleanTabs t).entities := by
  have hstart : List.Forall₂ (Track (MovedRight tabbed 0x09 t.text t.text.length) t.text.length)
      t.entities t.entities := by
    apply track_self h
    intro s e entity hs he hse hle
    have hplace := le_place_tabbed t.text s (hse.trans hle)
    constructor
    · omega
    · omega
    · omega
    · omega
    · intro _
      rw [if_pos hle, he]
  rw [cleanTabs]
  by_cases htabs : t.text.count 0x09 = 0
  · have hnot : 0x09 ∉ t.text := List.count_eq_zero.mp htabs
    simp only [if_pos htabs]
    refine ⟨(flatMap_tabbed hnot).symm, ?_⟩
    refine hstart.imp fun raw entity htrack => htrack.imp fun s e he hmoved => ?_
    apply hmoved.first
    intro q hq
    have hpart := @tabbed_part [] t.text [] hnot q (Nat.zero_le q) (by simpa using hq)
    simpa using hpart
  · simp only [if_neg htabs]
    have hspec := @replaceTabs_spec t.text [] (List.replicate (t.text.count 0x09) 0) [] t.entities
      { t with text := t.text ++ List.replicate (t.text.count 0x09) 0 } h.sorted (by simp)
      (by simp) (by simp) (by simpa using hstart)
    simpa using hspec

theorem moveStringPart_text_congr {r r' : TextWithEntities} (to_ from_ count : Nat)
    (h : r.text = r'.text) :
    (moveStringPart r to_ from_ count).text = (moveStringPart r' to_ from_ count).text := by
  rw [moveStringPart, moveStringPart]
  split_ifs
  · exact h
  · rw [h]
  · exact h

theorem removeReturns_congr {r r' : TextWithEntities} (n ch to_ from_ : Nat)
    (h : r.text = r'.text) :
    (removeReturns n ch to_ from_ r).1 = (removeReturns n ch to_ from_ r').1 ∧
      (removeReturns n ch to_ from_ r).2.1 = (removeReturns n ch to_ from_ r').2.1 ∧
      (removeReturns n ch to_ from_ r).2.2.text = (removeReturns n ch to_ from_ r').2.2.text := by
  induction n generalizing ch to_ from_ r r' with
  | zero => exact ⟨rfl, rfl, h⟩
  | succ n ih =>
    rw [removeReturns, removeReturns, h]
    cases r'.text[ch]? with
    | none => exact ⟨rfl, rfl, h⟩
    | some c =>
      dsimp only
      by_cases hc : c = 0x0D
      · rw [if_pos hc, if_pos hc]
        exact ih _ _ _ (moveStringPart_text_congr _ _ _ h)
      · rw [if_neg hc, if_neg hc]
        split_ifs
        · apply ih
          rfl
        · exact ih _ _ _ h

theorem cleanReturns_text_congr {r r' : TextWithEntities} (h : r.text = r'.text) :
    (cleanReturns r).text = (cleanReturns r').text := by
  have hloop := removeReturns_congr r'.text.length 0 0 0 h
  rw [cleanReturns, cleanReturns, h]
  generalize removeReturns r'.text.length 0 0 0 r = left at hloop ⊢
  generalize removeReturns r'.text.length 0 0 0 r' = right at hloop ⊢
  obtain ⟨to_, from_, result⟩ := left
  obtain ⟨to', from', result'⟩ := right
  obtain ⟨rfl, rfl, htext⟩ : to_ = to' ∧ from_ = from' ∧ result.text = result'.text := hloop
  have hmove := moveStringPart_text_congr to_ from_ (r'.text.length - from_) htext
  dsimp only
  split_ifs
  · rw [hmove]
  · exact hmove

theorem cleanReturns_tracked {t : TextWithEntities}
    (hsorted : t.entities.Pairwise fun a b => 0 < b.length → a.offset ≤ b.offset)
    (h : List.Forall₂ (Track (MovedLeft returned 0x0D t.text 0) t.text.length) t.entities
      t.entities) :
    (cleanReturns t).text = t.text.flatMap returned ∧
      List.Forall₂ (Track (MovedLeft returned 0x0D t.text t.text.length) t.text.length)
        t.entities (cleanReturns t).entities := by
  obtain ⟨X, Q, G, result, hsplit, hQ, hX, hrun, htext, hentities⟩ :=
    @removeReturns_spec [] t.text [] t.entities t [] hsorted (by simp) (by simp) (by simp) h
  have hT : t.text = X ++ Q := hsplit
  have hlength := length_flatMap_returned hQ
  have hcount : t.text.length - X.length = Q.length := by
    rw [hT, List.length_append, Nat.add_sub_cancel_left]
  have htext' : result.text = X.flatMap returned ++ G ++ Q.flatMap returned ++ [] := by
    rw [htext, List.append_nil]
  have hmovedText := moveStringPart_text_left htext'
  rw [hX, hlength, List.append_nil] at hmovedText
  have hmoved : List.Forall₂ (Track (MovedLeft returned 0x0D t.text t.text.length)
      t.text.length) t.entities (moveStringPart result (X.flatMap returned).length X.length
        Q.length).entities := by
    have hall := @moveStringPart_entities_left [] Q t.entities result X hsorted hQ
      (by simpa [hT] using hentities)
    have hlen : (X ++ Q).length = X.length + Q.length := List.length_append
    rw [hT, hlen]
    simpa using hall
  have hresult : cleanReturns t =
      (let moved := moveStringPart result (X.flatMap returned).length X.length Q.length
      if (X.flatMap returned).length + Q.length < t.text.length then
        { moved with text := moved.text.take ((X.flatMap returned).length + Q.length) }
      else moved) := by
    rw [cleanReturns]
    simp only [List.length_nil, List.flatMap_nil, Nat.add_zero] at hrun
    rw [hrun]
    simp only [hcount]
  rw [hresult]
  dsimp only
  have hflat : t.text.flatMap returned = X.flatMap returned ++ Q.flatMap returned := by
    rw [hT, List.flatMap_append]
  have hend : (X.flatMap returned ++ Q.flatMap returned).length =
      (X.flatMap returned).length + Q.length := by
    rw [List.length_append, hlength]
  split_ifs with hlt
  · refine ⟨?_, hmoved⟩
    rw [hmovedText, hflat, ← hend]
    exact List.take_left' rfl
  · refine ⟨?_, hmoved⟩
    have hG : (G ++ Q.flatMap returned).drop Q.length = [] := by
      rw [List.drop_eq_nil_iff, List.length_append]
      rw [hT, List.length_append] at hlt
      omega
    rw [hmovedText, hG, hflat, List.append_nil]

theorem cleanReturns_text (t : TextWithEntities) :
    (cleanReturns t).text = t.text.flatMap returned := by
  have hbare := @cleanReturns_tracked { t with entities := [] } .nil .nil
  rw [← hbare.1]
  exact cleanReturns_text_congr rfl

theorem cleanReturns_entities {t : TextWithEntities} (h : t.Loose) :
    List.Forall₂ (Track (MovedLeft returned 0x0D t.text t.text.length) t.text.length) t.entities
      (cleanReturns t).entities := by
  refine (cleanReturns_tracked h.sorted ?_).2
  apply track_self h
  intro s e entity hs he _ hle
  constructor
  · omega
  · omega
  · omega
  · omega
  · intro hse
    rw [if_pos (by omega), he]

end TelegramClient.Text
