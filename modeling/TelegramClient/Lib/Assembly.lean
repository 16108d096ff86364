import Mathlib

/-! A sequence that is put together from parts of one size, in any order: a part lands
at its own offset, and what is missing in front of it is filled up. -/

namespace TelegramClient.Assembly

variable {α : Type*}

/-- Fills up to a length. -/
def grow (xs : List α) (n : Nat) (fill : α) : List α := xs ++ List.replicate (n - xs.length) fill

/-- Writes a piece at an offset, behind a gap if the sequence is shorter. -/
def place (xs : List α) (offset : Nat) (piece : List α) (fill : α) : List α :=
  (grow xs offset fill).take offset ++ piece ++ xs.drop (offset + piece.length)

/-- The part of a whole that begins at an offset. -/
def partAt (size : Nat) (whole : List α) (offset : Nat) : List α := (whole.drop offset).take size

variable {xs piece whole : List α} {size offset n : Nat} {fill : α} {offsets : List Nat}

theorem length_grow : (grow xs n fill).length = max xs.length n := by
  rw [grow, List.length_append, List.length_replicate]
  omega

theorem getElem?_grow {i : Nat} (h : i < xs.length) : (grow xs n fill)[i]? = xs[i]? :=
  List.getElem?_append_left h

theorem grow_of_le (h : n ≤ xs.length) : grow xs n fill = xs := by
  rw [grow, Nat.sub_eq_zero_of_le h, List.replicate_zero, List.append_nil]

theorem length_take_grow : ((grow xs offset fill).take offset).length = offset := by
  rw [List.length_take, length_grow]
  omega

theorem length_place : (place xs offset piece fill).length = max xs.length (offset + piece.length) := by
  rw [place, List.length_append, List.length_append, length_take_grow, List.length_drop]
  omega

theorem getElem?_place_before {i : Nat} (h : i < offset) :
    (place xs offset piece fill)[i]? = (grow xs offset fill)[i]? := by
  have hlen : ((grow xs offset fill).take offset).length = offset := length_take_grow
  rw [place, List.append_assoc, List.getElem?_append_left (by omega), List.getElem?_take_of_lt h]

theorem getElem?_place_inside {i : Nat} (h : i < piece.length) :
    (place xs offset piece fill)[offset + i]? = piece[i]? := by
  have hlen : ((grow xs offset fill).take offset).length = offset := length_take_grow
  rw [place, List.append_assoc, List.getElem?_append_right (by omega), hlen,
    Nat.add_sub_cancel_left, List.getElem?_append_left h]

theorem getElem?_place_behind {i : Nat} (h : offset + piece.length ≤ i) :
    (place xs offset piece fill)[i]? = xs[i]? := by
  have hlen : ((grow xs offset fill).take offset).length = offset := length_take_grow
  rw [place, List.getElem?_append_right (by rw [List.length_append]; omega), List.length_append,
    hlen, List.getElem?_drop]
  congr 1
  omega

theorem place_of_le (h : xs.length ≤ offset) :
    place xs offset piece fill = grow xs offset fill ++ piece := by
  have hlen : (grow xs offset fill).length = offset := by
    rw [length_grow]
    exact Nat.max_eq_right h
  rw [place, List.take_of_length_le (Nat.le_of_eq hlen),
    List.drop_of_length_le (h.trans (Nat.le_add_right _ _)), List.append_nil]

theorem place_of_ge (h : offset ≤ xs.length) :
    (grow xs (offset + piece.length) fill).take offset ++ piece ++
      (grow xs (offset + piece.length) fill).drop (offset + piece.length) =
    place xs offset piece fill := by
  have htake : (grow xs (offset + piece.length) fill).take offset = xs.take offset := by
    rw [grow, List.take_append_of_le_length h]
  have hdrop : (grow xs (offset + piece.length) fill).drop (offset + piece.length) =
      xs.drop (offset + piece.length) := by
    by_cases hend : offset + piece.length ≤ xs.length
    · rw [grow_of_le hend]
    · rw [List.drop_of_length_le, List.drop_of_length_le (by omega)]
      rw [length_grow]
      omega
  rw [place, grow_of_le h, htake, hdrop]

theorem length_partAt : (partAt size whole offset).length = min size (whole.length - offset) := by
  rw [partAt, List.length_take, List.length_drop]

theorem getElem?_partAt {i : Nat} (h : i < size) :
    (partAt size whole offset)[i]? = whole[offset + i]? := by
  rw [partAt, List.getElem?_take_of_lt h, List.getElem?_drop]

theorem start_eq_iff (hsize : 0 < size) (hoffset : size ∣ offset) {i : Nat} :
    i / size * size = offset ↔ offset ≤ i ∧ i < offset + size := by
  obtain ⟨k, rfl⟩ := hoffset
  rw [Nat.mul_comm size k, Nat.mul_left_inj hsize.ne', Nat.div_eq_iff hsize]
  constructor
  · rintro ⟨hle, hlt⟩
    exact ⟨hle, by omega⟩
  · rintro ⟨hle, hlt⟩
    exact ⟨hle, by omega⟩

theorem start_le {i : Nat} : i / size * size ≤ i := Nat.div_mul_le_self i size

/-- The parts at the offsets are in the sequence, and it ends with one of them. -/
structure Assembled (size : Nat) (whole : List α) (offsets : List Nat) (xs : List α) : Prop where
  content : ∀ i, i < whole.length → i / size * size ∈ offsets → xs[i]? = whole[i]?
  reached : xs = [] ∨ ∃ offset ∈ offsets, offset < whole.length ∧
    xs.length = min (offset + size) whole.length

theorem assembled_nil : Assembled size whole [] [] := ⟨fun _ _ hmem => absurd hmem List.not_mem_nil, .inl rfl⟩

theorem Assembled.length_le (h : Assembled size whole offsets xs) : xs.length ≤ whole.length := by
  rcases h.reached with rfl | ⟨offset, -, -, hlen⟩
  · exact Nat.zero_le _
  · rw [hlen]
    exact Nat.min_le_right _ _

theorem Assembled.eq_whole (h : Assembled size whole offsets xs)
    (hall : ∀ offset, size ∣ offset → offset < whole.length → offset ∈ offsets) : xs = whole := by
  refine List.ext_getElem? fun i => ?_
  by_cases hi : i < whole.length
  · exact h.content i hi (hall _ (Nat.dvd_mul_left size _) (start_le.trans_lt hi))
  · have hle := h.length_le
    rw [List.getElem?_eq_none (by omega), List.getElem?_eq_none (by omega)]

theorem Assembled.lt_length (h : Assembled size whole offsets xs) (hsize : 0 < size)
    (hoffset : size ∣ offset) (hmem : offset ∈ offsets) {i : Nat} (hi : i < whole.length)
    (hle : offset ≤ i) (hlt : i < offset + size) : i < xs.length := by
  have hget := h.content i hi (by rw [(start_eq_iff hsize hoffset).mpr ⟨hle, hlt⟩]; exact hmem)
  rw [List.getElem?_eq_getElem hi] at hget
  exact (List.getElem?_eq_some_iff.mp hget).1

theorem Assembled.partAt_eq (h : Assembled size whole offsets xs) (hsize : 0 < size)
    (hoffset : size ∣ offset) (hmem : offset ∈ offsets) :
    (xs.drop offset).take (partAt size whole offset).length = partAt size whole offset := by
  refine List.ext_getElem? fun i => ?_
  have hlen : (partAt size whole offset).length = min size (whole.length - offset) := length_partAt
  by_cases hi : i < (partAt size whole offset).length
  · have hstart : (offset + i) / size * size = offset :=
      (start_eq_iff hsize hoffset).mpr ⟨by omega, by omega⟩
    rw [List.getElem?_take_of_lt hi, List.getElem?_drop, getElem?_partAt (by omega),
      h.content (offset + i) (by omega) (by rw [hstart]; exact hmem)]
  · have htake : ((xs.drop offset).take (partAt size whole offset).length).length ≤ i :=
      (List.length_take_le _ _).trans (Nat.le_of_not_lt hi)
    rw [List.getElem?_eq_none htake, List.getElem?_eq_none (Nat.le_of_not_lt hi)]

/-- A part that is not there yet and begins in front of the end fits in front of it. -/
theorem Assembled.fits (h : Assembled size whole offsets xs) (hsize : 0 < size)
    (haligned : ∀ o ∈ offsets, size ∣ o) (hoffset : size ∣ offset) (hnew : offset ∉ offsets)
    (hlt : offset < xs.length) : offset + (partAt size whole offset).length ≤ xs.length := by
  rcases h.reached with rfl | ⟨last, hlast, hend, hlen⟩
  · exact absurd hlt (Nat.not_lt_zero _)
  · obtain ⟨a, rfl⟩ := hoffset
    obtain ⟨b, rfl⟩ := haligned last hlast
    have hne : a ≠ b := by
      rintro rfl
      exact hnew hlast
    rw [length_partAt, hlen]
    rcases Nat.lt_or_gt_of_ne hne with hab | hab
    · have hstep : size * a + size ≤ size * b := by
        rw [← Nat.mul_succ]
        exact Nat.mul_le_mul_left size hab
      omega
    · have hstep : size * b + size ≤ size * a := by
        rw [← Nat.mul_succ]
        exact Nat.mul_le_mul_left size hab
      omega

theorem Assembled.place (h : Assembled size whole offsets xs) (hsize : 0 < size)
    (haligned : ∀ o ∈ offsets, size ∣ o) (hoffset : size ∣ offset) (hlt : offset < whole.length) :
    Assembled size whole (offsets ++ [offset])
      (place xs offset (partAt size whole offset) fill) where
  content i hi hmem := by
    have hlen : (partAt size whole offset).length = min size (whole.length - offset) := length_partAt
    by_cases hin : offset ≤ i ∧ i < offset + size
    · have hget := @getElem?_place_inside α xs (partAt size whole offset) offset fill (i - offset)
        (by omega)
      rw [Nat.add_sub_cancel' hin.1] at hget
      rw [hget, getElem?_partAt (by omega), Nat.add_sub_cancel' hin.1]
    · have hold : i / size * size ∈ offsets := by
        rcases List.mem_append.mp hmem with hold | hnew
        · exact hold
        · exact absurd ((start_eq_iff hsize hoffset).mp (List.mem_singleton.mp hnew)) hin
      have hget := h.content i hi hold
      have hilt : i < xs.length := by
        obtain ⟨hle, hlt'⟩ := (start_eq_iff hsize (haligned _ hold)).mp rfl
        exact h.lt_length hsize (haligned _ hold) hold hi hle hlt'
      by_cases hbefore : i < offset
      · rw [getElem?_place_before hbefore, getElem?_grow hilt, hget]
      · rw [getElem?_place_behind (by omega), hget]
  reached := by
    have hlen : (partAt size whole offset).length = min size (whole.length - offset) := length_partAt
    rw [length_place, hlen]
    right
    by_cases hle : xs.length ≤ min (offset + size) whole.length
    · exact ⟨offset, List.mem_append_right _ (List.mem_singleton_self _), hlt, by omega⟩
    · rcases h.reached with rfl | ⟨last, hlast, hend, hxs⟩
      · exact absurd (Nat.zero_le _) hle
      · exact ⟨last, List.mem_append_left _ hlast, hend, by omega⟩

/-- A part behind the end of the whole is empty and changes nothing. -/
theorem Assembled.append (h : Assembled size whole offsets xs) (hsize : 0 < size)
    (hoffset : size ∣ offset) (hle : whole.length ≤ offset) :
    Assembled size whole (offsets ++ [offset]) xs where
  content i hi hmem := by
    rcases List.mem_append.mp hmem with hold | hnew
    · exact h.content i hi hold
    · have hin := (start_eq_iff hsize hoffset).mp (List.mem_singleton.mp hnew)
      omega
  reached := by
    refine h.reached.imp_right ?_
    rintro ⟨last, hlast, hrest⟩
    exact ⟨last, List.mem_append_left _ hlast, hrest⟩

theorem disjoint_parts {offset' : Nat} (hoffset : size ∣ offset) (hoffset' : size ∣ offset')
    (hne : offset ≠ offset') : offset + (partAt size whole offset).length ≤ offset' ∨
      offset' + (partAt size whole offset').length ≤ offset := by
  obtain ⟨a, rfl⟩ := hoffset
  obtain ⟨b, rfl⟩ := hoffset'
  have hab : a ≠ b := fun heq => hne (by rw [heq])
  rw [length_partAt, length_partAt]
  rcases Nat.lt_or_gt_of_ne hab with hab | hab
  · have hstep : size * a + size ≤ size * b := by
      rw [← Nat.mul_succ]
      exact Nat.mul_le_mul_left size hab
    omega
  · have hstep : size * b + size ≤ size * a := by
      rw [← Nat.mul_succ]
      exact Nat.mul_le_mul_left size hab
    omega

end TelegramClient.Assembly
