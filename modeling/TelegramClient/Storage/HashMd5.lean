import Mathlib
import TelegramClient.Lib.Blocks
import TelegramClient.Lib.LittleEndian

/-! The MD5 of `core/utils.cpp`: a running hash that is fed in pieces. The digest depends
on the bytes only, not on where the pieces end. -/

namespace TelegramClient

structure Md5State where
  a : UInt32 := 0x67452301
  b : UInt32 := 0xefcdab89
  c : UInt32 := 0x98badcfe
  d : UInt32 := 0x10325476
  deriving DecidableEq, Repr

def kMd5BlockSize : Nat := 64

def md5RotateLeft (x n : UInt32) : UInt32 := (x <<< n) ||| (x >>> (32 - n))

def md5F (x y z : UInt32) : UInt32 := (x &&& y) ||| (~~~x &&& z)

def md5G (x y z : UInt32) : UInt32 := (x &&& z) ||| (y &&& ~~~z)

def md5H (x y z : UInt32) : UInt32 := x ^^^ y ^^^ z

def md5I (x y z : UInt32) : UInt32 := y ^^^ (x ||| ~~~z)

/-- One of the 64 lines of `transform`: the word it takes, the rotation, the constant. -/
structure Md5Line where
  word : Nat
  shift : UInt32
  constant : UInt32

def md5LinesF : List Md5Line := [
  ⟨0, 7, 0xd76aa478⟩, ⟨1, 12, 0xe8c7b756⟩, ⟨2, 17, 0x242070db⟩, ⟨3, 22, 0xc1bdceee⟩,
  ⟨4, 7, 0xf57c0faf⟩, ⟨5, 12, 0x4787c62a⟩, ⟨6, 17, 0xa8304613⟩, ⟨7, 22, 0xfd469501⟩,
  ⟨8, 7, 0x698098d8⟩, ⟨9, 12, 0x8b44f7af⟩, ⟨10, 17, 0xffff5bb1⟩, ⟨11, 22, 0x895cd7be⟩,
  ⟨12, 7, 0x6b901122⟩, ⟨13, 12, 0xfd987193⟩, ⟨14, 17, 0xa679438e⟩, ⟨15, 22, 0x49b40821⟩]

def md5LinesG : List Md5Line := [
  ⟨1, 5, 0xf61e2562⟩, ⟨6, 9, 0xc040b340⟩, ⟨11, 14, 0x265e5a51⟩, ⟨0, 20, 0xe9b6c7aa⟩,
  ⟨5, 5, 0xd62f105d⟩, ⟨10, 9, 0x2441453⟩, ⟨15, 14, 0xd8a1e681⟩, ⟨4, 20, 0xe7d3fbc8⟩,
  ⟨9, 5, 0x21e1cde6⟩, ⟨14, 9, 0xc33707d6⟩, ⟨3, 14, 0xf4d50d87⟩, ⟨8, 20, 0x455a14ed⟩,
  ⟨13, 5, 0xa9e3e905⟩, ⟨2, 9, 0xfcefa3f8⟩, ⟨7, 14, 0x676f02d9⟩, ⟨12, 20, 0x8d2a4c8a⟩]

def md5LinesH : List Md5Line := [
  ⟨5, 4, 0xfffa3942⟩, ⟨8, 11, 0x8771f681⟩, ⟨11, 16, 0x6d9d6122⟩, ⟨14, 23, 0xfde5380c⟩,
  ⟨1, 4, 0xa4beea44⟩, ⟨4, 11, 0x4bdecfa9⟩, ⟨7, 16, 0xf6bb4b60⟩, ⟨10, 23, 0xbebfbc70⟩,
  ⟨13, 4, 0x289b7ec6⟩, ⟨0, 11, 0xeaa127fa⟩, ⟨3, 16, 0xd4ef3085⟩, ⟨6, 23, 0x4881d05⟩,
  ⟨9, 4, 0xd9d4d039⟩, ⟨12, 11, 0xe6db99e5⟩, ⟨15, 16, 0x1fa27cf8⟩, ⟨2, 23, 0xc4ac5665⟩]

def md5LinesI : List Md5Line := [
  ⟨0, 6, 0xf4292244⟩, ⟨7, 10, 0x432aff97⟩, ⟨14, 15, 0xab9423a7⟩, ⟨5, 21, 0xfc93a039⟩,
  ⟨12, 6, 0x655b59c3⟩, ⟨3, 10, 0x8f0ccc92⟩, ⟨10, 15, 0xffeff47d⟩, ⟨1, 21, 0x85845dd1⟩,
  ⟨8, 6, 0x6fa87e4f⟩, ⟨15, 10, 0xfe2ce6e0⟩, ⟨6, 15, 0xa3014314⟩, ⟨13, 21, 0x4e0811a1⟩,
  ⟨4, 6, 0xf7537e82⟩, ⟨11, 10, 0xbd3af235⟩, ⟨2, 15, 0x2ad7d2bb⟩, ⟨9, 21, 0xeb86d391⟩]

def md5Decode (input : List UInt8) (i : Nat) : UInt32 :=
  .ofNat (leValue ((input.drop (4 * i)).take 4))

/-- `_md5_FF` and its siblings. The lines go round the four words: the next line calls
`a` what this one called `d`. -/
def md5Round (mix : UInt32 → UInt32 → UInt32 → UInt32) (block : List UInt8) (s : Md5State)
    (line : Md5Line) : Md5State where
  a := s.d
  b := md5RotateLeft (s.a + mix s.b s.c s.d + md5Decode block line.word + line.constant) line.shift
    + s.b
  c := s.b
  d := s.c

def Md5State.transform (s : Md5State) (block : List UInt8) : Md5State :=
  let t := md5LinesF.foldl (md5Round md5F block) s
  let t := md5LinesG.foldl (md5Round md5G block) t
  let t := md5LinesH.foldl (md5Round md5H block) t
  let t := md5LinesI.foldl (md5Round md5I block) t
  { a := s.a + t.a, b := s.b + t.b, c := s.c + t.c, d := s.d + t.d }

def Md5State.encode (s : Md5State) : List UInt8 :=
  leBytes 4 s.a.toNat ++ leBytes 4 s.b.toNat ++ leBytes 4 s.c.toNat ++ leBytes 4 s.d.toNat

/-- The source does not fill the buffer at the start. -/
structure HashMd5 where
  buffer : List UInt8 := List.replicate kMd5BlockSize 0
  count0 : UInt32 := 0
  count1 : UInt32 := 0
  state : Md5State := {}
  deriving DecidableEq, Repr

namespace HashMd5

/-- `memcpy` into the buffer. -/
def overwrite (buffer : List UInt8) (index : Nat) (bytes : List UInt8) : List UInt8 :=
  buffer.take index ++ bytes ++ buffer.drop (index + bytes.length)

/-- The loop of `feed` over the whole blocks behind the first part. -/
def feedBlocks (buf : List UInt8) (state : Md5State) (i : Nat) : Md5State × Nat :=
  if i + kMd5BlockSize ≤ buf.length then
    feedBlocks buf (state.transform ((buf.drop i).take kMd5BlockSize)) (i + kMd5BlockSize)
  else (state, i)
  termination_by buf.length - i
  decreasing_by
    simp only [kMd5BlockSize] at *
    omega

def feed (h : HashMd5) (buf : List UInt8) : HashMd5 :=
  let length := UInt32.ofNat buf.length
  let index := (h.count0 / 8 % 64).toNat
  let count0 := h.count0 + (length <<< 3)
  let carry : UInt32 := if count0 < length <<< 3 then 1 else 0
  let count1 := h.count1 + carry + (length >>> 29)
  let firstpart := 64 - index
  if firstpart ≤ buf.length then
    let buffer := overwrite h.buffer index (buf.take firstpart)
    let blocks := feedBlocks buf (h.state.transform buffer) firstpart
    { buffer := overwrite buffer 0 (buf.drop blocks.2), count0, count1, state := blocks.1 }
  else { h with buffer := overwrite h.buffer index buf, count0, count1 }

def padding (index : Nat) : List UInt8 :=
  0x80 :: List.replicate ((if index < 56 then 56 - index else 120 - index) - 1) 0

def finalize (h : HashMd5) : HashMd5 :=
  let bits := leBytes 4 h.count0.toNat ++ leBytes 4 h.count1.toNat
  let index := (h.count0 / 8 % 64).toNat
  (h.feed (padding index)).feed bits

def result (h : HashMd5) : List UInt8 := h.finalize.state.encode

example : (feed {} [0x61, 0x62, 0x63]).result = [0x90, 0x01, 0x50, 0x98, 0x3c, 0xd2, 0x4f, 0xb0,
    0xd6, 0x96, 0x3f, 0x7d, 0x28, 0xe1, 0x7f, 0x72] := by decide +kernel

/-! ### The pieces do not matter -/

/-- The two counters as one. -/
def bits (h : HashMd5) : Nat := h.count0.toNat + 2 ^ 32 * h.count1.toNat

/-- What a hash holds after the bytes `xs`, in whatever pieces they came. -/
structure Fed (h : HashMd5) (xs : List UInt8) : Prop where
  bits : h.bits = 8 * xs.length % 2 ^ 64
  state : h.state = Blocks.absorb Md5State.transform kMd5BlockSize {} xs
  length_buffer : h.buffer.length = kMd5BlockSize
  buffer : h.buffer.take (xs.length % kMd5BlockSize) = Blocks.rest kMd5BlockSize xs

theorem fed_nil : Fed {} [] where
  bits := rfl
  state := rfl
  length_buffer := by simp [kMd5BlockSize]
  buffer := rfl

theorem Fed.index {h : HashMd5} {xs : List UInt8} (hf : Fed h xs) :
    (h.count0 / 8 % 64).toNat = xs.length % 64 := by
  have hb := hf.bits
  have hlt := h.count0.toNat_lt
  rw [HashMd5.bits] at hb
  rw [UInt32.toNat_mod, UInt32.toNat_div]
  simp only [UInt32.reduceToNat]
  omega

theorem bits_feed (h : HashMd5) {buf : List UInt8} (hl : buf.length < 2 ^ 32) :
    (feed h buf).bits = (h.bits + 8 * buf.length) % 2 ^ 64 := by
  have hlow : (UInt32.ofNat buf.length <<< 3).toNat = 8 * buf.length % 2 ^ 32 := by
    rw [UInt32.toNat_shiftLeft, UInt32.toNat_ofNat', Nat.mod_eq_of_lt hl, Nat.shiftLeft_eq]
    simp only [UInt32.reduceToNat, Nat.reduceMod, Nat.reducePow]
    omega
  have hhigh : (UInt32.ofNat buf.length >>> 29).toNat = buf.length / 2 ^ 29 := by
    rw [UInt32.toNat_shiftRight, UInt32.toNat_ofNat', Nat.mod_eq_of_lt hl,
      Nat.shiftRight_eq_div_pow]
    rfl
  have hcounts : (feed h buf).count0 = h.count0 + (UInt32.ofNat buf.length <<< 3) ∧
      (feed h buf).count1 = h.count1 + (if h.count0 + (UInt32.ofNat buf.length <<< 3) <
        UInt32.ofNat buf.length <<< 3 then (1 : UInt32) else 0) + (UInt32.ofNat buf.length >>> 29) := by
    rw [feed]
    dsimp only
    split <;> exact ⟨rfl, rfl⟩
  have h0 := h.count0.toNat_lt
  have h1 := h.count1.toNat_lt
  rw [HashMd5.bits, HashMd5.bits, hcounts.1, hcounts.2, UInt32.toNat_add, UInt32.toNat_add, UInt32.toNat_add,
    hlow, hhigh]
  by_cases hc : h.count0 + (UInt32.ofNat buf.length <<< 3) < UInt32.ofNat buf.length <<< 3
  · rw [if_pos hc]
    rw [UInt32.lt_iff_toNat_lt, UInt32.toNat_add, hlow] at hc
    simp only [UInt32.reduceToNat]
    omega
  · rw [if_neg hc]
    rw [UInt32.lt_iff_toNat_lt, UInt32.toNat_add, hlow] at hc
    simp only [UInt32.reduceToNat]
    omega

theorem feedBlocks_eq (buf : List UInt8) (state : Md5State) (i : Nat) (hi : i ≤ buf.length) :
    (feedBlocks buf state i).1 =
        Blocks.absorb Md5State.transform kMd5BlockSize state (buf.drop i) ∧
      buf.drop (feedBlocks buf state i).2 = Blocks.rest kMd5BlockSize (buf.drop i) := by
  have hs : 0 < kMd5BlockSize := by decide
  fun_induction feedBlocks buf state i with
  | case1 state i hle ih =>
    have hb : ((buf.drop i).take kMd5BlockSize).length = kMd5BlockSize := by
      rw [List.length_take, List.length_drop]
      omega
    have hsplit : buf.drop i = (buf.drop i).take kMd5BlockSize ++ buf.drop (i + kMd5BlockSize) := by
      rw [← List.drop_drop, List.take_append_drop]
    have habsorb : Blocks.absorb Md5State.transform kMd5BlockSize state (buf.drop i) =
        Blocks.absorb Md5State.transform kMd5BlockSize
          (state.transform ((buf.drop i).take kMd5BlockSize)) (buf.drop (i + kMd5BlockSize)) := by
      conv_lhs => rw [hsplit]
      exact Blocks.absorb_block hs hb
    have hrest : Blocks.rest kMd5BlockSize (buf.drop i) =
        Blocks.rest kMd5BlockSize (buf.drop (i + kMd5BlockSize)) := by
      conv_lhs => rw [hsplit]
      exact Blocks.rest_block hs hb
    rw [habsorb, hrest]
    exact ih hle
  | case2 state i hlt =>
    have hd : (buf.drop i).length < kMd5BlockSize := by
      rw [List.length_drop]
      omega
    rw [Blocks.absorb_of_lt hd, Blocks.rest_of_lt hd]
    exact ⟨rfl, rfl⟩

theorem length_overwrite {buffer bytes : List UInt8} {index : Nat}
    (h : index + bytes.length ≤ buffer.length) :
    (overwrite buffer index bytes).length = buffer.length := by
  rw [overwrite, List.length_append, List.length_append, List.length_take, List.length_drop]
  omega

theorem take_overwrite {buffer bytes : List UInt8} {index : Nat}
    (h : index + bytes.length ≤ buffer.length) :
    (overwrite buffer index bytes).take (index + bytes.length) = buffer.take index ++ bytes := by
  have hl : (buffer.take index ++ bytes).length = index + bytes.length := by
    rw [List.length_append, List.length_take]
    omega
  rw [overwrite, List.take_append_of_le_length (Nat.le_of_eq hl.symm),
    List.take_of_length_le (Nat.le_of_eq hl)]

theorem Fed.length_kept {h : HashMd5} {xs : List UInt8} (hf : Fed h xs) :
    (h.buffer.take (xs.length % 64)).length = xs.length % 64 := by
  have hlb := hf.length_buffer
  rw [List.length_take, hlb]
  simp only [kMd5BlockSize]
  omega

theorem Fed.feed_short {h : HashMd5} {xs buf : List UInt8} (hf : Fed h xs)
    (hlt : buf.length < 64 - xs.length % 64) :
    (h.feed buf).state = h.state ∧
      (h.feed buf).buffer = overwrite h.buffer (xs.length % 64) buf := by
  rw [HashMd5.feed]
  dsimp only
  rw [hf.index, if_neg (by omega)]
  exact ⟨rfl, rfl⟩

/-- Otherwise the kept bytes and the new ones are absorbed as one stream. -/
theorem Fed.feed_full {h : HashMd5} {xs buf : List UInt8} (hf : Fed h xs)
    (hle : 64 - xs.length % 64 ≤ buf.length) :
    (h.feed buf).state = Blocks.absorb Md5State.transform kMd5BlockSize h.state
        (h.buffer.take (xs.length % 64) ++ buf) ∧
      ∃ block : List UInt8, block.length = kMd5BlockSize ∧
        (h.feed buf).buffer = overwrite block 0
          (Blocks.rest kMd5BlockSize (h.buffer.take (xs.length % 64) ++ buf)) := by
  have hs : 0 < kMd5BlockSize := by decide
  have hlb := hf.length_buffer
  have hlf : xs.length % 64 + (buf.take (64 - xs.length % 64)).length = h.buffer.length := by
    rw [List.length_take, hlb]
    simp only [kMd5BlockSize]
    omega
  have hblock : overwrite h.buffer (xs.length % 64) (buf.take (64 - xs.length % 64)) =
      h.buffer.take (xs.length % 64) ++ buf.take (64 - xs.length % 64) := by
    have ht := take_overwrite (Nat.le_of_eq hlf)
    rwa [hlf, List.take_of_length_le (Nat.le_of_eq (length_overwrite (Nat.le_of_eq hlf)))] at ht
  have hlblock := length_overwrite (Nat.le_of_eq hlf)
  rw [hblock, hlb] at hlblock
  have hsplit : h.buffer.take (xs.length % 64) ++ buf =
      h.buffer.take (xs.length % 64) ++ buf.take (64 - xs.length % 64) ++
        buf.drop (64 - xs.length % 64) := by
    rw [List.append_assoc, List.take_append_drop]
  have hblocks := feedBlocks_eq buf (h.state.transform (h.buffer.take (xs.length % 64) ++
    buf.take (64 - xs.length % 64))) (64 - xs.length % 64) hle
  rw [hsplit, Blocks.absorb_block hs hlblock, Blocks.rest_block hs hlblock, ← hblocks.1,
    ← hblocks.2]
  rw [HashMd5.feed]
  dsimp only
  rw [hf.index, if_pos hle, hblock]
  exact ⟨rfl, _, hlblock, rfl⟩

theorem Fed.feed {h : HashMd5} {xs : List UInt8} (hf : Fed h xs) (buf : List UInt8)
    (hl : buf.length < 2 ^ 32) : Fed (h.feed buf) (xs ++ buf) := by
  have hs : 0 < kMd5BlockSize := by decide
  have hbits : (h.feed buf).bits = 8 * (xs ++ buf).length % 2 ^ 64 := by
    rw [bits_feed h hl, hf.bits, List.length_append]
    omega
  have hstate : Blocks.absorb Md5State.transform kMd5BlockSize {} (xs ++ buf) =
      Blocks.absorb Md5State.transform kMd5BlockSize h.state
        (h.buffer.take (xs.length % 64) ++ buf) := by
    rw [Blocks.absorb_append hs, ← hf.state, ← hf.buffer]
    rfl
  have hlen : (Blocks.rest kMd5BlockSize (xs ++ buf)).length = (xs ++ buf).length % kMd5BlockSize :=
    Blocks.length_rest
  have hrest : Blocks.rest kMd5BlockSize (xs ++ buf) =
      Blocks.rest kMd5BlockSize (h.buffer.take (xs.length % 64) ++ buf) := by
    rw [Blocks.rest_append hs, ← hf.buffer]
    rfl
  have hkept := hf.length_kept
  by_cases hle : 64 - xs.length % 64 ≤ buf.length
  · obtain ⟨hst, block, hlb, hbuf⟩ := hf.feed_full hle
    have hfits : 0 + (Blocks.rest kMd5BlockSize (xs ++ buf)).length ≤ block.length := by
      rw [hlen, hlb]
      have := Nat.mod_lt (xs ++ buf).length hs
      omega
    have htake := take_overwrite hfits
    rw [Nat.zero_add, hlen, List.take_zero, List.nil_append] at htake
    refine ⟨hbits, hst.trans hstate.symm, ?_, ?_⟩
    · rw [hbuf, ← hrest, length_overwrite hfits, hlb]
    · rw [hbuf, ← hrest]
      exact htake
  · have hlt : buf.length < 64 - xs.length % 64 := by omega
    obtain ⟨hst, hbuf⟩ := hf.feed_short hlt
    have hshort : (h.buffer.take (xs.length % 64) ++ buf).length < kMd5BlockSize := by
      rw [List.length_append, hkept]
      simp only [kMd5BlockSize]
      omega
    have hfits : xs.length % 64 + buf.length ≤ h.buffer.length := by
      rw [hf.length_buffer]
      simp only [kMd5BlockSize]
      omega
    refine ⟨hbits, ?_, ?_, ?_⟩
    · rw [hst, hstate]
      exact (Blocks.absorb_of_lt hshort).symm
    · rw [hbuf, length_overwrite hfits, hf.length_buffer]
    · have hmod : (xs ++ buf).length % kMd5BlockSize = xs.length % 64 + buf.length := by
        rw [List.length_append]
        simp only [kMd5BlockSize]
        omega
      rw [hbuf, hmod, take_overwrite hfits, hrest]
      exact (Blocks.rest_of_lt hshort).symm

/-- What the digest of a stream is: the stream, a one bit, zeros up to a whole block less
eight bytes, and the number of bits, absorbed block by block. -/
def md5 (xs : List UInt8) : List UInt8 :=
  (Blocks.absorb Md5State.transform kMd5BlockSize {} (xs ++ padding (xs.length % 64) ++
    leBytes 8 (8 * xs.length))).encode

theorem length_padding (index : Nat) : (padding index).length ≤ 120 := by
  rw [padding, List.length_cons, List.length_replicate]
  split <;> omega

/-- The digest is that of the bytes, in whatever pieces they were fed. -/
theorem Fed.result {h : HashMd5} {xs : List UInt8} (hf : Fed h xs) : h.result = md5 xs := by
  have hpad := hf.feed (padding (xs.length % 64))
    (lt_of_le_of_lt (length_padding _) (by decide))
  have hcounts : leBytes 4 h.count0.toNat ++ leBytes 4 h.count1.toNat =
      leBytes 8 (8 * xs.length) := by
    have hb := hf.bits
    have h0 := h.count0.toNat_lt
    have h1 := h.count1.toNat_lt
    rw [HashMd5.bits] at hb
    rw [← leBytes_mod 8, show 256 ^ 8 = 2 ^ 64 by decide, ← hb, leBytes_add 4 4,
      ← leBytes_mod 4 (h.count0.toNat + _), show 256 ^ 4 = 2 ^ 32 by decide]
    congr 2
    · omega
    · omega
  have hbits := hpad.feed (leBytes 8 (8 * xs.length)) (by simp)
  rw [HashMd5.result, finalize, hf.index, hcounts, md5, hbits.state]

theorem fed_pieces {pieces : List (List UInt8)} (hl : ∀ piece ∈ pieces, piece.length < 2 ^ 32)
    {h : HashMd5} {xs : List UInt8} (hf : Fed h xs) :
    Fed (pieces.foldl HashMd5.feed h) (xs ++ pieces.flatten) := by
  induction pieces generalizing h xs with
  | nil => simpa using hf
  | cons piece pieces ih =>
    have hnext := hf.feed piece (hl piece List.mem_cons_self)
    rw [List.foldl_cons, List.flatten_cons, ← List.append_assoc]
    exact ih (fun other ho => hl other (List.mem_cons_of_mem piece ho)) hnext

/-- A one bit, zeros up to eight bytes less than a whole block, and the length in bits. -/
def padded (xs : List UInt8) : List UInt8 :=
  xs ++ 0x80 :: (List.replicate ((119 - xs.length % 64) % 64) 0 ++ leBytes 8 (8 * xs.length))

theorem padding_eq (xs : List UInt8) :
    padding (xs.length % 64) = 0x80 :: List.replicate ((119 - xs.length % 64) % 64) 0 := by
  have hlt := Nat.mod_lt xs.length (show 0 < 64 by decide)
  rw [padding]
  congr 2
  split <;> omega

theorem length_padded (xs : List UInt8) : (padded xs).length % 64 = 0 := by
  have hlt := Nat.mod_lt xs.length (show 0 < 64 by decide)
  rw [padded, List.length_append, List.length_cons, List.length_append, List.length_replicate,
    length_leBytes]
  omega

theorem md5_eq (xs : List UInt8) :
    md5 xs = (Blocks.absorb Md5State.transform kMd5BlockSize {} (padded xs)).encode := by
  rw [md5, padding_eq, padded, List.append_assoc, List.cons_append]

end HashMd5

end TelegramClient
