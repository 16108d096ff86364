import TelegramClient.Lib.Bits
import TelegramClient.Text.Elements

/-! `RemoveAccents` of `ui/text/text_entity.cpp`, which rewrites a text in place. -/

namespace TelegramClient.Text

/-- The cases of `RemoveOneAccent`: each character with its letter. -/
def accents : List (Nat × Nat) :=
  [(7834, 97), (193, 97), (225, 97), (192, 97), (224, 97), (258, 97), (259, 97), (7854, 97),
    (7855, 97), (7856, 97), (7857, 97), (7860, 97), (7861, 97), (7858, 97), (7859, 97), (194, 97),
    (226, 97), (7844, 97), (7845, 97), (7846, 97), (7847, 97), (7850, 97), (7851, 97), (7848, 97),
    (7849, 97), (461, 97), (462, 97), (197, 97), (229, 97), (506, 97), (507, 97), (196, 97),
    (228, 97), (478, 97), (479, 97), (195, 97), (227, 97), (550, 97), (551, 97), (480, 97),
    (481, 97), (260, 97), (261, 97), (256, 97), (257, 97), (7842, 97), (7843, 97), (512, 97),
    (513, 97), (514, 97), (515, 97), (7840, 97), (7841, 97), (7862, 97), (7863, 97), (7852, 97),
    (7853, 97), (7680, 97), (7681, 97), (570, 97), (11365, 97), (508, 97), (509, 97), (482, 97),
    (483, 97), (7682, 98), (7683, 98), (7684, 98), (7685, 98), (7686, 98), (7687, 98), (579, 98),
    (384, 98), (7532, 98), (385, 98), (595, 98), (386, 98), (387, 98), (262, 99), (263, 99),
    (264, 99), (265, 99), (268, 99), (269, 99), (266, 99), (267, 99), (199, 99), (231, 99),
    (7688, 99), (7689, 99), (571, 99), (572, 99), (391, 99), (392, 99), (597, 99), (270, 100),
    (271, 100), (7690, 100), (7691, 100), (7696, 100), (7697, 100), (7692, 100), (7693, 100),
    (7698, 100), (7699, 100), (7694, 100), (7695, 100), (272, 100), (273, 100), (7533, 100),
    (393, 100), (598, 100), (394, 100), (599, 100), (395, 100), (396, 100), (545, 100), (240, 100),
    (201, 101), (399, 101), (398, 101), (477, 101), (233, 101), (200, 101), (232, 101), (276, 101),
    (277, 101), (202, 101), (234, 101), (7870, 101), (7871, 101), (7872, 101), (7873, 101),
    (7876, 101), (7877, 101), (7874, 101), (7875, 101), (282, 101), (283, 101), (203, 101),
    (235, 101), (7868, 101), (7869, 101), (278, 101), (279, 101), (552, 101), (553, 101),
    (7708, 101), (7709, 101), (280, 101), (281, 101), (274, 101), (275, 101), (7702, 101),
    (7703, 101), (7700, 101), (7701, 101), (7866, 101), (7867, 101), (516, 101), (517, 101),
    (518, 101), (519, 101), (7864, 101), (7865, 101), (7878, 101), (7879, 101), (7704, 101),
    (7705, 101), (7706, 101), (7707, 101), (582, 101), (583, 101), (602, 101), (605, 101),
    (7710, 102), (7711, 102), (7534, 102), (401, 102), (402, 102), (500, 103), (501, 103),
    (286, 103), (287, 103), (284, 103), (285, 103), (486, 103), (487, 103), (288, 103), (289, 103),
    (290, 103), (291, 103), (7712, 103), (7713, 103), (484, 103), (485, 103), (403, 103),
    (608, 103), (292, 104), (293, 104), (542, 104), (543, 104), (7718, 104), (7719, 104),
    (7714, 104), (7715, 104), (7720, 104), (7721, 104), (7716, 104), (7717, 104), (7722, 104),
    (7723, 104), (817, 104), (7830, 104), (294, 104), (295, 104), (11367, 104), (11368, 104),
    (205, 105), (237, 105), (204, 105), (236, 105), (300, 105), (301, 105), (206, 105), (238, 105),
    (463, 105), (464, 105), (207, 105), (239, 105), (7726, 105), (7727, 105), (296, 105),
    (297, 105), (304, 105), (302, 105), (303, 105), (298, 105), (299, 105), (7880, 105),
    (7881, 105), (520, 105), (521, 105), (522, 105), (523, 105), (7882, 105), (7883, 105),
    (7724, 105), (7725, 105), (305, 105), (407, 105), (616, 105), (308, 106), (309, 106),
    (780, 106), (496, 106), (567, 106), (584, 106), (585, 106), (669, 106), (607, 106), (644, 106),
    (7728, 107), (7729, 107), (488, 107), (489, 107), (310, 107), (311, 107), (7730, 107),
    (7731, 107), (7732, 107), (7733, 107), (408, 107), (409, 107), (11369, 107), (11370, 107),
    (313, 97), (314, 108), (317, 108), (318, 108), (315, 108), (316, 108), (7734, 108), (7735, 108),
    (7736, 108), (7737, 108), (7740, 108), (7741, 108), (7738, 108), (7739, 108), (321, 108),
    (322, 108), (803, 108), (319, 108), (320, 108), (573, 108), (410, 108), (11360, 108),
    (11361, 108), (11362, 108), (619, 108), (620, 108), (621, 108), (564, 108), (7742, 109),
    (7743, 109), (7744, 109), (7745, 109), (7746, 109), (7747, 109), (625, 109), (323, 110),
    (324, 110), (504, 110), (505, 110), (327, 110), (328, 110), (209, 110), (241, 110), (7748, 110),
    (7749, 110), (325, 110), (326, 110), (7750, 110), (7751, 110), (7754, 110), (7755, 110),
    (7752, 110), (7753, 110), (413, 110), (626, 110), (544, 110), (414, 110), (627, 110),
    (565, 110), (776, 116), (211, 111), (243, 111), (210, 111), (242, 111), (334, 111), (335, 111),
    (212, 111), (244, 111), (7888, 111), (7889, 111), (7890, 111), (7891, 111), (7894, 111),
    (7895, 111), (7892, 111), (7893, 111), (465, 111), (466, 111), (214, 111), (246, 111),
    (554, 111), (555, 111), (336, 111), (337, 111), (213, 111), (245, 111), (7756, 111),
    (7757, 111), (7758, 111), (7759, 111), (556, 111), (557, 111), (558, 111), (559, 111),
    (560, 111), (561, 111), (216, 111), (248, 111), (510, 111), (511, 111), (490, 111), (491, 111),
    (492, 111), (493, 111), (332, 111), (333, 111), (7762, 111), (7763, 111), (7760, 111),
    (7761, 111), (7886, 111), (7887, 111), (524, 111), (525, 111), (526, 111), (527, 111),
    (416, 111), (417, 111), (7898, 111), (7899, 111), (7900, 111), (7901, 111), (7904, 111),
    (7905, 111), (7902, 111), (7903, 111), (7906, 111), (7907, 111), (7884, 111), (7885, 111),
    (7896, 111), (7897, 111), (415, 111), (629, 111), (7764, 112), (7765, 112), (7766, 112),
    (7767, 112), (11363, 112), (420, 112), (421, 112), (771, 112), (672, 113), (586, 113),
    (587, 113), (340, 114), (341, 114), (344, 114), (345, 114), (7768, 114), (7769, 114),
    (342, 114), (343, 114), (528, 114), (529, 114), (530, 114), (531, 114), (7770, 114),
    (7771, 114), (7772, 114), (7773, 114), (7774, 114), (7775, 114), (588, 114), (589, 114),
    (7538, 114), (636, 114), (11364, 114), (637, 114), (638, 114), (7539, 114), (223, 115),
    (346, 115), (347, 115), (7780, 115), (7781, 115), (348, 115), (349, 115), (352, 115),
    (353, 115), (7782, 115), (7783, 115), (7776, 115), (7777, 115), (7835, 115), (350, 115),
    (351, 115), (7778, 115), (7779, 115), (7784, 115), (7785, 115), (536, 115), (537, 115),
    (642, 115), (809, 115), (222, 116), (254, 116), (356, 116), (357, 116), (7831, 116),
    (7786, 116), (7787, 116), (354, 116), (355, 116), (7788, 116), (7789, 116), (538, 116),
    (539, 116), (7792, 116), (7793, 116), (7790, 116), (7791, 116), (358, 116), (359, 116),
    (574, 116), (11366, 116), (7541, 116), (427, 116), (428, 116), (429, 116), (430, 116),
    (648, 116), (566, 116), (218, 117), (250, 117), (217, 117), (249, 117), (364, 117), (365, 117),
    (219, 117), (251, 117), (467, 117), (468, 117), (366, 117), (367, 117), (220, 117), (252, 117),
    (471, 117), (472, 117), (475, 117), (476, 117), (473, 117), (474, 117), (469, 117), (470, 117),
    (368, 117), (369, 117), (360, 117), (361, 117), (7800, 117), (7801, 117), (370, 117),
    (371, 117), (362, 117), (363, 117), (7802, 117), (7803, 117), (7910, 117), (7911, 117),
    (532, 117), (533, 117), (534, 117), (535, 117), (431, 117), (432, 117), (7912, 117),
    (7913, 117), (7914, 117), (7915, 117), (7918, 117), (7919, 117), (7916, 117), (7917, 117),
    (7920, 117), (7921, 117), (7908, 117), (7909, 117), (7794, 117), (7795, 117), (7798, 117),
    (7799, 117), (7796, 117), (7797, 117), (580, 117), (649, 117), (7804, 118), (7805, 118),
    (7806, 118), (7807, 118), (434, 118), (651, 118), (7810, 119), (7811, 119), (7808, 119),
    (7809, 119), (372, 119), (373, 119), (778, 121), (7832, 119), (7812, 119), (7813, 119),
    (7814, 119), (7815, 119), (7816, 119), (7817, 119), (7820, 120), (7821, 120), (7818, 120),
    (7819, 120), (221, 121), (253, 121), (7922, 121), (7923, 121), (374, 121), (375, 121),
    (7833, 121), (376, 121), (255, 121), (7928, 121), (7929, 121), (7822, 121), (7823, 121),
    (562, 121), (563, 121), (7926, 121), (7927, 121), (7924, 121), (7925, 121), (655, 121),
    (590, 121), (591, 121), (435, 121), (436, 121), (377, 122), (378, 122), (7824, 122),
    (7825, 122), (381, 122), (382, 122), (379, 122), (380, 122), (7826, 122), (7827, 122),
    (7828, 122), (7829, 122), (437, 122), (438, 122), (548, 122), (549, 122), (656, 122),
    (657, 122), (11371, 122), (11372, 122), (494, 122), (495, 122), (442, 122), (65298, 50),
    (65302, 54), (65314, 66), (65318, 70), (65322, 74), (65326, 78), (65330, 82), (65334, 86),
    (65338, 90), (65346, 98), (65350, 102), (65354, 106), (65358, 110), (65362, 114), (65366, 118),
    (65370, 122), (65297, 49), (65301, 53), (65305, 57), (65313, 65), (65317, 69), (65321, 73),
    (65325, 77), (65329, 81), (65333, 85), (65337, 89), (65345, 97), (65349, 101), (65353, 105),
    (65357, 109), (65361, 113), (65365, 117), (65369, 121), (65296, 48), (65300, 52), (65304, 56),
    (65316, 68), (65320, 72), (65324, 76), (65328, 80), (65332, 84), (65336, 88), (65348, 100),
    (65352, 104), (65356, 108), (65360, 112), (65364, 116), (65368, 120), (65299, 51), (65303, 55),
    (65315, 67), (65319, 71), (65323, 75), (65327, 79), (65331, 83), (65335, 87), (65347, 99),
    (65351, 103), (65355, 107), (65359, 111), (65363, 115), (65367, 119), (1105, 1077)]

def removeOneAccent (code : UInt32) : QChar := .ofNat ((accents.lookup code.toNat).getD 0)

/-- `QChar::surrogateToUcs4` -/
def surrogateToUcs4 (high low : QChar) : UInt32 := (high.toUInt32 <<< 10) + low.toUInt32 - 0x35fdc00

/-- The variables of the loop; `result` begins as a copy of the text. -/
structure AccentScan where
  result : List QChar
  copying : Bool := false
  i : Nat := 0

namespace AccentScan

variable (p : Platform) (s : AccentScan)

def put (ch : QChar) : AccentScan := { s with result := s.result.set s.i ch }

def copy (ch : QChar) : AccentScan := if s.copying then s.put ch else s

def next : AccentScan := { s with i := s.i + 1 }

/-- A character that is not in a surrogate pair. -/
def visit (ch : QChar) : AccentScan :=
  if ch < 128 then (s.copy ch).next
  else if p.chIsDiac ch then { s with copying := true }
  else
    let noAccent := removeOneAccent ch.toUInt32
    if noAccent > 0 ∧ noAccent ≠ ch then (s.put noAccent).next else (s.copy ch).next

/-- The loop over what is left of the text. -/
def run (s : AccentScan) : List QChar → AccentScan
  | [] => s
  | [ch] => s.visit p ch
  | ch :: low :: rest =>
    if ch < 128 ∨ p.chIsDiac ch then (s.visit p ch).run (low :: rest)
    else if isHighSurrogate ch && isLowSurrogate low then
      let noAccent := removeOneAccent (surrogateToUcs4 ch low)
      if noAccent > 0 then ({ s with copying := true }.put noAccent).next.run (low :: rest)
      else ((s.copy ch).next.copy low).next.run rest
    else (s.visit p ch).run (low :: rest)

end AccentScan

def removeAccents (p : Platform) (text : List QChar) : List QChar :=
  let s := AccentScan.run p { result := text } text
  if s.i < s.result.length then s.result.take s.i else s.result

/-! ### Characters -/

/-- The characters of a text, where the two of a surrogate pair are one. -/
def characters : List QChar → List (List QChar)
  | [] => []
  | [ch] => [[ch]]
  | ch :: low :: rest =>
    if isHighSurrogate ch && isLowSurrogate low then [ch, low] :: characters rest
    else [ch] :: characters (low :: rest)

def ucs4 : List QChar → UInt32
  | [ch] => ch.toUInt32
  | [high, low] => surrogateToUcs4 high low
  | _ => 0

def isDiacritic (p : Platform) (character : List QChar) : Bool :=
  match character with
  | [ch] => p.chIsDiac ch
  | _ => false

/-- What a character is replaced by. -/
def unaccented (p : Platform) (character : List QChar) : List QChar :=
  if isDiacritic p character then []
  else if removeOneAccent (ucs4 character) > 0 then [removeOneAccent (ucs4 character)]
  else character

/-! ### Surrogates -/

theorem upper_of_and {ch mask : QChar} (h : ch &&& 0xFC00 == mask) :
    ch.toNat / 2 ^ 10 * 2 ^ 10 = mask.toNat := by
  have hand := congrArg UInt16.toNat (beq_iff_eq.mp h)
  rw [UInt16.toNat_and] at hand
  rw [← Bits.and_upper (show ch.toNat < 2 ^ (10 + 6) from ch.toNat_lt)]
  exact hand

theorem high_bounds {ch : QChar} (h : isHighSurrogate ch) :
    0xD800 ≤ ch.toNat ∧ ch.toNat < 0xDC00 := by
  have hupper : ch.toNat / 2 ^ 10 * 2 ^ 10 = 0xD800 := upper_of_and h
  omega

theorem low_bounds {ch : QChar} (h : isLowSurrogate ch) :
    0xDC00 ≤ ch.toNat ∧ ch.toNat < 0xE000 := by
  have hupper : ch.toNat / 2 ^ 10 * 2 ^ 10 = 0xDC00 := upper_of_and h
  omega

theorem surrogateToUcs4_ge {high low : QChar} (hhigh : isHighSurrogate high)
    (hlow : isLowSurrogate low) : 0x10000 ≤ (surrogateToUcs4 high low).toNat := by
  have hh := high_bounds hhigh
  have hl := low_bounds hlow
  rw [surrogateToUcs4]
  have hshift : (high.toUInt32 <<< 10).toNat = high.toNat * 1024 := by
    rw [UInt32.toNat_shiftLeft]
    simp only [UInt16.toNat_toUInt32, Nat.shiftLeft_eq]
    have hten : (10 : UInt32).toNat % 32 = 10 := rfl
    rw [hten]
    omega
  rw [UInt32.toNat_sub, UInt32.toNat_add, hshift, UInt16.toNat_toUInt32]
  have hbase : (0x35fdc00 : UInt32).toNat = 0x35fdc00 := rfl
  rw [hbase]
  omega

/-! ### The loop -/

/-- What is done stands in front, and what is left is not overwritten before it is read. -/
structure Rewritten (done rest : List QChar) (s : AccentScan) : Prop where
  exists_left : ∃ left, s.result = done ++ left ∧ rest.length ≤ left.length ∧
    (s.copying = false → left = rest)
  index : s.i = done.length

variable {p : Platform} {s : AccentScan} {done rest : List QChar} {ch low : QChar}

theorem Rewritten.put (h : Rewritten done (ch :: rest) s) (new : QChar) :
    Rewritten (done ++ [new]) rest (s.put new).next := by
  obtain ⟨⟨left, hresult, hlength, hsame⟩, hindex⟩ := h
  cases left with
  | nil => simp at hlength
  | cons x left =>
    refine ⟨⟨left, ?_, by simpa using hlength, fun hcopying => ?_⟩, ?_⟩
    · simp [AccentScan.put, AccentScan.next, hresult, hindex]
    · exact (List.cons.inj (hsame hcopying)).2
    · simp [AccentScan.put, AccentScan.next, hindex]

theorem Rewritten.copy (h : Rewritten done (ch :: rest) s) :
    Rewritten (done ++ [ch]) rest (s.copy ch).next := by
  cases hcopying : s.copying with
  | true =>
    rw [AccentScan.copy, if_pos hcopying]
    exact h.put ch
  | false =>
    obtain ⟨⟨left, hresult, hlength, hsame⟩, hindex⟩ := h
    rw [AccentScan.copy, if_neg (by simp [hcopying])]
    refine ⟨⟨rest, ?_, le_rfl, fun _ => rfl⟩, ?_⟩
    · simp [AccentScan.next, hresult, hsame hcopying]
    · simp [AccentScan.next, hindex]

theorem Rewritten.skip (h : Rewritten done (ch :: rest) s) :
    Rewritten done rest { s with copying := true } := by
  obtain ⟨⟨left, hresult, hlength, -⟩, hindex⟩ := h
  rw [List.length_cons] at hlength
  exact ⟨⟨left, hresult, by omega, fun hcopying => by cases hcopying⟩, hindex⟩

theorem accents_bounds : (accents.all fun a => 128 ≤ a.1 && a.1 < 0x10000) = true := by
  decide +kernel

theorem removeOneAccent_eq_zero {code : UInt32} (h : code.toNat < 128 ∨ 0x10000 ≤ code.toNat) :
    removeOneAccent code = 0 := by
  have hnone : accents.lookup code.toNat = none := by
    rw [List.lookup_eq_none_iff]
    intro a ha
    have hbounds := List.all_eq_true.mp accents_bounds a ha
    simp only [Bool.and_eq_true, decide_eq_true_eq] at hbounds
    rw [bne_iff_ne]
    omega
  rw [removeOneAccent, hnone]
  rfl

/-- What the tables of Qt say of ASCII and of surrogates. -/
structure Platform.IsUnicode (p : Platform) : Prop where
  ascii : ∀ ch < 128, p.isMarkNonSpacing ch = false
  surrogate : ∀ ch, isHighSurrogate ch → p.isMarkNonSpacing ch = false

theorem chIsDiac_eq_false (hmark : p.isMarkNonSpacing ch = false) (hne : ch.toNat ≠ 1652)
    (hlt : ch.toNat < 64606) : p.chIsDiac ch = false := by
  have hne' : ch ≠ 1652 := by
    rintro rfl
    exact hne rfl
  have hlt' : ¬ 64606 ≤ ch := UInt16.not_le.mpr (UInt16.lt_iff_toNat_lt.mpr hlt)
  simp [Platform.chIsDiac, hmark, hne', hlt']

theorem Platform.IsUnicode.chIsDiac_ascii (hp : p.IsUnicode) (h : ch < 128) :
    p.chIsDiac ch = false := by
  have hlt : ch.toNat < 128 := h
  exact chIsDiac_eq_false (hp.ascii ch h) (by omega) (by omega)

theorem Platform.IsUnicode.chIsDiac_surrogate (hp : p.IsUnicode) (h : isHighSurrogate ch) :
    p.chIsDiac ch = false := by
  have hbounds := high_bounds h
  exact chIsDiac_eq_false (hp.surrogate ch h) (by omega) (by omega)

theorem Rewritten.visit (hp : p.IsUnicode) (h : Rewritten done (ch :: rest) s) :
    Rewritten (done ++ unaccented p [ch]) rest (s.visit p ch) := by
  by_cases hascii : ch < 128
  · have hcode : ch.toUInt32 < 128 := by simpa [UInt32.lt_iff_toNat_lt, UInt16.lt_iff_toNat_lt] using hascii
    have hch : unaccented p [ch] = [ch] := by
      simp [unaccented, isDiacritic, hp.chIsDiac_ascii hascii, ucs4,
        removeOneAccent_eq_zero (.inl hcode)]
    rw [hch, AccentScan.visit, if_pos hascii]
    exact h.copy
  · by_cases hdiac : p.chIsDiac ch
    · have hch : unaccented p [ch] = [] := by simp [unaccented, isDiacritic, hdiac]
      rw [hch, List.append_nil, AccentScan.visit, if_neg hascii, if_pos hdiac]
      exact h.skip
    · rw [AccentScan.visit, if_neg hascii, if_neg hdiac]
      by_cases haccent : removeOneAccent ch.toUInt32 > 0
      · have hch : unaccented p [ch] = [removeOneAccent ch.toUInt32] := by
          simp [unaccented, isDiacritic, hdiac, ucs4, haccent]
        by_cases hsame : removeOneAccent ch.toUInt32 = ch
        · rw [hch, hsame, if_neg (by simp)]
          exact h.copy
        · rw [hch, if_pos ⟨haccent, hsame⟩]
          exact h.put _
      · have hch : unaccented p [ch] = [ch] := by
          simp [unaccented, isDiacritic, hdiac, ucs4, haccent]
        rw [hch, if_neg (fun hboth => haccent hboth.1)]
        exact h.copy

theorem unaccented_pair (hhigh : isHighSurrogate ch) (hlow : isLowSurrogate low) :
    unaccented p [ch, low] = [ch, low] := by
  simp [unaccented, isDiacritic, ucs4,
    removeOneAccent_eq_zero (.inr (surrogateToUcs4_ge hhigh hlow))]

theorem Rewritten.run (hp : p.IsUnicode) (h : Rewritten done rest s) :
    Rewritten (done ++ (characters rest).flatMap (unaccented p)) [] (s.run p rest) := by
  induction rest using characters.induct generalizing done s with
  | case1 => simpa [characters, AccentScan.run] using h
  | case2 ch => simpa [characters, AccentScan.run] using h.visit hp
  | case3 ch low rest hpair ih =>
    obtain ⟨hhigh, hlow⟩ := Bool.and_eq_true_iff.mp hpair
    have hnot : ¬ (ch < 128 ∨ p.chIsDiac ch) := by
      rintro (hascii | hdiac)
      · have hlt : ch.toNat < 128 := hascii
        have hbounds := high_bounds hhigh
        omega
      · rw [hp.chIsDiac_surrogate hhigh] at hdiac
        cases hdiac
    have haccent := removeOneAccent_eq_zero (.inr (surrogateToUcs4_ge hhigh hlow))
    rw [AccentScan.run, if_neg hnot, if_pos hpair, haccent, if_neg (by decide), characters,
      if_pos hpair, List.flatMap_cons, unaccented_pair hhigh hlow, ← List.append_assoc]
    have hboth := h.copy.copy
    rw [List.append_assoc] at hboth
    exact ih hboth
  | case4 ch low rest hpair ih =>
    have hrun : s.run p (ch :: low :: rest) = (s.visit p ch).run p (low :: rest) := by
      rw [AccentScan.run, if_neg hpair, ite_self]
    rw [hrun, characters, if_neg hpair, List.flatMap_cons, ← List.append_assoc]
    exact ih (h.visit hp)

/-- Each character is replaced on its own, and nothing is lost behind the last one. -/
theorem removeAccents_eq (hp : p.IsUnicode) (text : List QChar) :
    removeAccents p text = (characters text).flatMap (unaccented p) := by
  have hstart : Rewritten [] text { result := text } := ⟨⟨text, rfl, le_rfl, fun _ => rfl⟩, rfl⟩
  obtain ⟨⟨left, hresult, -, -⟩, hindex⟩ := hstart.run hp
  rw [List.nil_append] at hresult hindex
  rw [removeAccents]
  simp only [hresult, hindex]
  split
  · exact List.take_left
  · next hlt =>
    rw [List.length_append] at hlt
    rw [List.eq_nil_of_length_eq_zero (show left.length = 0 by omega), List.append_nil]

/-- The combining marks of the block that starts with the grave accent. -/
def combiningMarks : Platform where
  isSpace ch := ch == 0x20
  isMarkNonSpacing ch := 0x300 ≤ ch && ch < 0x370
  isMac := false
  isElCapitan := false
  isSnowLeopard := false

theorem combiningMarks_isUnicode : combiningMarks.IsUnicode where
  ascii ch h := by
    have hlt : ¬ 0x300 ≤ ch := UInt16.not_le.mpr (UInt16.lt_trans h (by decide))
    simp [combiningMarks, hlt]
  surrogate ch h := by
    have hbounds := high_bounds h
    have hlt : ¬ ch < 0x370 := by
      intro hlt
      have hnat : ch.toNat < 0x370 := hlt
      omega
    simp [combiningMarks, hlt]

/-- Two ways to write a letter with an accent, and an emoji behind them. -/
theorem removeAccents_eq_emoji :
    removeAccents combiningMarks [0xE9, 0x65, 0x301, 0xD83D, 0xDE00, 0x21] =
      [0x65, 0x65, 0xD83D, 0xDE00, 0x21] :=
  (removeAccents_eq combiningMarks_isUnicode _).trans (by decide +kernel)

end TelegramClient.Text
