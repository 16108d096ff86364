import TelegramClient.Export.Html
import TelegramClient.Lib.Loops
import TelegramClient.Lib.Search

/-! `MakeLinks` of `export/output/export_output_html.cpp`, which puts the links of a text about the
export into elements. -/

namespace TelegramClient.Export

open Search Loops

def domain : Bytes := ascii "https://telegram.org/"

def isLinkChar (ch : UInt8) : Bool :=
  !((ch < 0x61 || ch > 0x7A) && (ch < 0x41 || ch > 0x5A) && (ch < 0x30 || ch > 0x39) && ch != 0x2D &&
    ch != 0x5F && ch != 0x2F)

structure LinkScan where
  result : Bytes := []
  offset : Nat := 0

/-- What is appended for a link. -/
def anchor (link : Bytes) : Bytes :=
  ascii "<a href=\"" ++ link ++ ascii "\">" ++ link ++ ascii "</a>"

/-- A round of the loop, which ends when there is no other link. -/
def makeLinksStep (value : Bytes) (s : LinkScan) : LinkScan ⊕ LinkScan :=
  match indexOf domain value s.offset with
  | none => .inl s
  | some start =>
    let path := (value.drop (start + domain.length)).takeWhile isLinkChar
    let till := start + domain.length + path.length
    if start > s.offset then
      let link := (value.drop start).take (till - start)
      let before := (value.drop s.offset).take (start - s.offset)
      .inr { result := s.result ++ before ++ anchor link, offset := till }
    else .inr s

/-- The result, if the loop ends within some rounds. -/
def makeLinks (n : Nat) (value : Bytes) : Option Bytes :=
  (iterate (makeLinksStep value) n {}).map fun s =>
    if s.result = [] then value
    else if s.offset < value.length then s.result ++ value.drop s.offset
    else s.result

/-! ### What the links of a text are -/

/-- The domain with all characters of links behind it, in front of the rest of a text. -/
structure IsLink (link rest : Bytes) : Prop where
  exists_path : ∃ path, link = domain ++ path ∧ ∀ ch ∈ path, isLinkChar ch
  ends : ∀ ch ∈ rest.head?, isLinkChar ch = false

/-- The links of a text, each with what stands in front of it, and what stands behind the last. -/
inductive Links : Bytes → List (Bytes × Bytes) → Bytes → Prop
  | none {last : Bytes} (hnone : ∀ k, ¬ domain <+: last.drop k) : Links last [] last
  | link {before link rest last : Bytes} {links : List (Bytes × Bytes)}
      (hfirst : ∀ k < before.length, ¬ domain <+: (before ++ link ++ rest).drop k)
      (hlink : IsLink link rest) (hrest : Links rest links last) :
      Links (before ++ link ++ rest) ((before, link) :: links) last

/-- Each link is in an element of its own, and without these elements the result is the text. -/
def MakesLinks (value result : Bytes) : Prop :=
  ∃ links last, Links value links last ∧
    value = links.flatMap (fun p => p.1 ++ p.2) ++ last ∧
    result = links.flatMap (fun p => p.1 ++ anchor p.2) ++ last

variable {value text last : Bytes} {links : List (Bytes × Bytes)} {s : LinkScan}

theorem Links.text_eq (h : Links text links last) :
    text = links.flatMap (fun p => p.1 ++ p.2) ++ last := by
  induction h with
  | none => rfl
  | link _ _ _ ih => simp [← ih]

theorem isLink_takeWhile (rest : Bytes) :
    IsLink (domain ++ rest.takeWhile isLinkChar) (rest.dropWhile isLinkChar) where
  exists_path := ⟨_, rfl, fun _ => List.mem_takeWhile_imp⟩
  ends ch hch := by
    have hhead := List.head?_dropWhile_not isLinkChar rest
    rw [Option.mem_def.mp hch] at hhead
    simpa using hhead

theorem not_prefix_rest {link rest : Bytes} (h : IsLink link rest) : ¬ domain <+: rest := by
  rintro ⟨after, rfl⟩
  have hhead := h.ends 0x68 rfl
  simp [isLinkChar] at hhead

/-- A round that does not start at a link finds none, or gets behind the first one. -/
theorem makeLinksStep_cases (h : ¬ domain <+: value.drop s.offset) :
    (makeLinksStep value s = .inl s ∧ ∀ k, ¬ domain <+: (value.drop s.offset).drop k) ∨
      ∃ before link rest, value.drop s.offset = before ++ link ++ rest ∧ IsLink link rest ∧
        (∀ k < before.length, ¬ domain <+: (before ++ link ++ rest).drop k) ∧
        makeLinksStep value s = .inr ⟨s.result ++ before ++ anchor link,
          s.offset + (before ++ link).length⟩ := by
  cases hstart : indexOf domain value s.offset with
  | none =>
    left
    refine ⟨by rw [makeLinksStep, hstart], fun k => ?_⟩
    rw [List.drop_drop]
    exact indexOf_eq_none_iff.mp hstart _ (Nat.le_add_right _ _)
  | some start =>
    right
    obtain ⟨⟨hle, after, hafter⟩, hleast⟩ := indexOf_eq_some_iff.mp hstart
    obtain ⟨k, rfl⟩ := Nat.exists_eq_add_of_le hle
    have hpos : 0 < k := by
      by_contra hk
      obtain rfl : k = 0 := by omega
      exact h ⟨after, hafter⟩
    have hbehind : value.drop (s.offset + k + domain.length) = after := by
      rw [← List.drop_drop, ← hafter, List.drop_left]
    have hsplit : value.drop s.offset = (value.drop s.offset).take k ++
        (domain ++ after.takeWhile isLinkChar) ++ after.dropWhile isLinkChar := by
      rw [List.append_assoc, List.append_assoc, List.takeWhile_append_dropWhile, hafter,
        ← List.drop_drop, List.take_append_drop]
    have hlength : ((value.drop s.offset).take k).length = k := by
      have hlengths := congrArg List.length hafter
      have hdomain : 0 < domain.length := by decide
      simp only [List.length_append, List.length_drop] at hlengths
      rw [List.length_take, List.length_drop]
      omega
    refine ⟨_, _, _, hsplit, isLink_takeWhile after, fun i hi hpre => ?_, ?_⟩
    · rw [hlength] at hi
      rw [← hsplit, List.drop_drop] at hpre
      have hmin := hleast ⟨Nat.le_add_right s.offset i, hpre⟩
      omega
    · have hlink : (value.drop (s.offset + k)).take
          (domain.length + (after.takeWhile isLinkChar).length) =
            domain ++ after.takeWhile isLinkChar := by
        have hsame : domain ++ after =
            (domain ++ after.takeWhile isLinkChar) ++ after.dropWhile isLinkChar := by
          rw [List.append_assoc, List.takeWhile_append_dropWhile]
        rw [← hafter, hsame]
        exact List.take_left' List.length_append
      have htill : s.offset + k + domain.length + (after.takeWhile isLinkChar).length -
          (s.offset + k) = domain.length + (after.takeWhile isLinkChar).length := by omega
      have hbefore : s.offset + k - s.offset = k := by omega
      rw [makeLinksStep, hstart]
      simp only [hbehind, htill, hbefore, hlink, if_pos (show s.offset + k > s.offset by omega)]
      rw [List.length_append, List.length_append, hlength, ← Nat.add_assoc, ← Nat.add_assoc]

/-- From a place that is not the start of a link the loop gets to the end of the text. -/
theorem exists_iterate_links (hoffset : s.offset ≤ value.length)
    (h : ¬ domain <+: value.drop s.offset) :
    ∃ n t links last, iterate (makeLinksStep value) n s = some t ∧
      Links (value.drop s.offset) links last ∧ value.drop t.offset = last ∧
      t.result = s.result ++ links.flatMap (fun p => p.1 ++ anchor p.2) := by
  induction hleft : (value.drop s.offset).length using Nat.strong_induction_on generalizing s with
  | _ m ih =>
    rcases makeLinksStep_cases h with ⟨hstep, hnone⟩ |
      ⟨before, link, rest, heq, hlink, hfirst, hstep⟩
    · exact ⟨1, s, [], _, iterate_of_done hstep, .none hnone, rfl, by simp⟩
    · have hrest : value.drop (s.offset + (before ++ link).length) = rest := by
        rw [← List.drop_drop, heq, List.drop_left]
      have hlengths := congrArg List.length heq
      have hlinkpos : 0 < link.length := by
        obtain ⟨path, rfl, -⟩ := hlink.exists_path
        rw [List.length_append]
        have hdomain : 0 < domain.length := by decide
        omega
      simp only [List.length_append, List.length_drop] at hlengths
      obtain ⟨n, t, links, last, hrun, hlinks, hlast, hresult⟩ :=
        @ih rest.length (by rw [← hleft, heq]; simp only [List.length_append]; omega)
          ⟨s.result ++ before ++ anchor link, s.offset + (before ++ link).length⟩
          (by simp only [List.length_append]; omega)
          (by rw [hrest]; exact not_prefix_rest hlink) (by rw [hrest])
      rw [hrest] at hlinks
      refine ⟨n + 1, t, (before, link) :: links, last, ?_, ?_, hlast, ?_⟩
      · rw [iterate_of_again hstep, hrun]
      · rw [heq]
        exact .link hfirst hlink hlinks
      · rw [hresult, List.flatMap_cons]
        simp only [List.append_assoc]

theorem makeLinks_of_prefix (h : domain <+: value) (n : Nat) : makeLinks n value = none := by
  have hstart : indexOf domain value 0 = some 0 :=
    indexOf_eq_some_iff.mpr ⟨⟨le_rfl, h⟩, fun _ _ => Nat.zero_le _⟩
  have hagain : ∀ t : LinkScan, t = {} → ∃ u, makeLinksStep value t = .inr u ∧ u = {} := by
    rintro t rfl
    refine ⟨{}, ?_, rfl⟩
    simp only [makeLinksStep, hstart]
    rw [if_neg (by decide)]
  rw [makeLinks, iterate_none hagain rfl]
  rfl

/-- The loop ends with the right result if and only if the text does not start with a link. -/
theorem makeLinks_iff (value : Bytes) :
    (∃ n result, makeLinks n value = some result ∧ MakesLinks value result) ↔
      ¬ domain <+: value := by
  constructor
  · rintro ⟨n, result, hresult, -⟩ hpre
    rw [ makeLinks_of_prefix hpre] at hresult
    cases hresult
  · intro h
    obtain ⟨n, t, links, last, hrun, hlinks, hlast, hresult⟩ :=
      exists_iterate_links (s := {}) (Nat.zero_le _) h
    have hvalue : value = links.flatMap (fun p => p.1 ++ p.2) ++ last := hlinks.text_eq
    rw [List.nil_append] at hresult
    refine ⟨n, _, by rw [makeLinks, hrun, Option.map_some], links, last, hlinks, hvalue, ?_⟩
    cases links with
    | nil => simpa [hresult] using hvalue
    | cons link links =>
      have hne : t.result ≠ [] := by simp [hresult, anchor, ascii, Utf8.encode]
      rw [if_neg hne]
      split
      · rw [hresult, hlast]
      · next hend =>
        rw [← hlast, List.drop_eq_nil_of_le (by omega), List.append_nil, hresult]

/-- A text that is a link. -/
theorem link_hangs : ¬ ∀ value : Bytes, ∃ n result,
    makeLinks n value = some result ∧ MakesLinks value result := by
  intro h
  obtain ⟨n, result, hresult, -⟩ := h domain
  rw [ makeLinks_of_prefix List.prefix_rfl] at hresult
  cases hresult

end TelegramClient.Export
