import SlurmLite.Base.Words

/-!
# Bitmaps

The bitmaps of `bitstring.c`: a size in bits and an array of 32-bit words
whose last word may be used in part. Bit `i` is bit `i % 32` of word `i / 32`.

* **Sizes**: a bitmap carries the number of words its size calls for.
* **Bits**: one equation for each operation says what bit `i` of the array is
  afterwards, past the size as well (`bit_bitNset`, `bit_bitNot`, ...).
* **Loops over words**: their counter is an `int` that goes up by 32, so it
  overflows for a size above `maxLoop`; such a call is undefined.
-/

namespace Slurm.Bitstring

open Base.Words

/-- `_bitstr_words` without the two words of overhead. -/
def bitstrWords (nbits : Nat) : Nat := (nbits + 31) / 32

/-- A bitmap of `nbits` bits. -/
structure Bitstr where
  nbits : Nat
  words : List (BitVec 32)
  length_words : words.length = bitstrWords nbits
deriving DecidableEq

/-- The largest size a loop `for (bit = 0; bit < nbits; bit += 32)` stays in
range for. -/
abbrev maxLoop : Nat := 2147483616

/-- Bit `i` of the word array. -/
def Bitstr.bit (b : Bitstr) (i : Nat) : Bool := getBit b.words i

theorem lt_words (b : Bitstr) {i : Nat} (h : i < b.nbits) : i < 32 * b.words.length := by
  rw [b.length_words, bitstrWords]
  omega

/-! ## One bit -/

/-- `bit_alloc`. -/
def bitAlloc (nbits : Nat) : Bitstr :=
  ⟨nbits, List.replicate (bitstrWords nbits) 0, List.length_replicate ..⟩

/-- `bit_test`. -/
def bitTest (b : Bitstr) (i : Nat) : Bool := b.bit i

/-- `bit_set` and `bit_clear`. -/
def bitPut (v : Bool) (b : Bitstr) (i : Nat) : Bitstr :=
  ⟨b.nbits, putBit v b.words i, by rw [length_putBit, b.length_words]⟩

/-- `bit_set`. -/
def bitSet (b : Bitstr) (i : Nat) : Bitstr := bitPut true b i

/-- `bit_clear`. -/
def bitClear (b : Bitstr) (i : Nat) : Bitstr := bitPut false b i

/-! ## Runs of bits -/

/-- The loop over a partial first byte: `len` bits are left from `start` on. -/
def headBits (v : Bool) : Bitstr → Nat → Nat → Bitstr × Nat × Nat
  | b, start, 0 => (b, start, 0)
  | b, start, len + 1 =>
    if start % 8 = 0 then (b, start, len + 1)
    else headBits v (bitPut v b start) (start + 1) len

/-- The loop over a partial last byte. -/
def tailBits (v : Bool) : Bitstr → Nat → Nat → Bitstr × Nat
  | b, _, 0 => (b, 0)
  | b, start, len + 1 =>
    if (start + len + 1) % 8 = 0 then (b, len + 1)
    else tailBits v (bitPut v b (start + len)) start len

/-- `memset` on the words of a bitmap. -/
def memsetBits (v : Bool) (b : Bitstr) (k n : Nat) : Bitstr :=
  ⟨b.nbits, memset v b.words k n, by rw [length_memset, b.length_words]⟩

/-- `bit_nset` and `bit_nclear`: the `len` bits from `start` on. -/
def bitNput (v : Bool) (b : Bitstr) (start len : Nat) : Bitstr :=
  let (b, start, len) := headBits v b start len
  let (b, len) := tailBits v b start len
  if 1 < len then memsetBits v b (start / 8) (len / 8) else b

/-- `bit_nset`. -/
def bitNset (b : Bitstr) (start stop : Nat) : Bitstr := bitNput true b start (stop + 1 - start)

/-- `bit_nclear`. -/
def bitNclear (b : Bitstr) (start stop : Nat) : Bitstr := bitNput false b start (stop + 1 - start)

/-! ## Whole words -/

/-- `bit_not`. -/
def bitNot (b : Bitstr) : Option Bitstr :=
  if b.nbits ≤ maxLoop then
    some ⟨b.nbits, b.words.map fun word => ~~~word, by rw [List.length_map, b.length_words]⟩
  else none

/-- `bit_and` and `bit_or`. -/
def bitZip (f : BitVec 32 → BitVec 32 → BitVec 32) (b1 b2 : Bitstr) : Option Bitstr :=
  if h : b1.nbits = b2.nbits ∧ b1.nbits ≤ maxLoop then
    some ⟨b1.nbits, List.zipWith f b1.words b2.words, by
      rw [List.length_zipWith, b1.length_words, b2.length_words, ← h.1, Nat.min_self]⟩
  else none

/-- `bit_and`. -/
def bitAnd (b1 b2 : Bitstr) : Option Bitstr := bitZip (· &&& ·) b1 b2

/-- `bit_or`. -/
def bitOr (b1 b2 : Bitstr) : Option Bitstr := bitZip (· ||| ·) b1 b2

/-- `bit_equal`: the words of two bitmaps of one size are compared. -/
def bitEqual (b1 b2 : Bitstr) : Option Nat :=
  if b1.nbits ≠ b2.nbits then some 0
  else if b1.nbits ≤ maxLoop then some (if b1.words = b2.words then 1 else 0)
  else none

/-- `bit_super_set`. -/
def bitSuperSet (b1 b2 : Bitstr) : Option Nat :=
  if b1.nbits = b2.nbits ∧ b1.nbits ≤ maxLoop then
    some (if List.zipWith (· &&& ·) b1.words b2.words = b1.words then 1 else 0)
  else none

/-! ## New sizes and places -/

/-- The words `realloc` returns: the old ones as far as they go, then
whatever the memory holds. -/
def reallocWords (words : List (BitVec 32)) (memory : Nat → BitVec 32) (n : Nat) :
    List (BitVec 32) :=
  (List.range n).map fun k => words.getD k (memory k)

/-- `bit_realloc`. -/
def bitRealloc (b : Bitstr) (nbits : Nat) (memory : Nat → BitVec 32) : Bitstr :=
  let new : Bitstr := ⟨nbits, reallocWords b.words memory (bitstrWords nbits), by
    rw [reallocWords, List.length_map, List.length_range]⟩
  if b.nbits < nbits then bitNclear new b.nbits (nbits - 1) else new

/-- `bit_copy`. -/
def bitCopy (b : Bitstr) : Bitstr := b

/-- The distance of a rotation, made positive. -/
def rotation (n : Int) (nbits : Nat) : Nat :=
  let n := n.tmod nbits
  (if n < 0 then n + nbits else n).toNat

/-- One step of the loops of `bit_rotate_copy`. -/
def copyBit (b : Bitstr) (new : Bitstr) (source target : Nat) : Bitstr :=
  if bitTest b source then bitSet new target else new

/-- `bit_rotate_copy`, for `nbits` bits of which there are some. -/
def bitRotateCopy (b : Bitstr) (n : Int) (nbits : Nat) : Bitstr :=
  let deltasize := nbits - b.nbits
  let n := rotation n nbits
  let wrapbits := n - deltasize
  let new := bitNclear (bitAlloc nbits) 0 (nbits - 1)
  let new := (List.range (b.nbits - wrapbits)).foldl (fun new i => copyBit b new i (i + n)) new
  (List.range wrapbits).foldl (fun new i => copyBit b new (b.nbits - wrapbits + i) i) new

/-- `bit_copybits`. -/
def bitCopybits (dest src : Bitstr) : Option Bitstr :=
  if src.nbits = dest.nbits then some src else none

/-- `bit_rotate`: the remainder of a division by zero is undefined. -/
def bitRotate (b : Bitstr) (n : Int) : Option Bitstr :=
  if n = 0 then some b
  else if b.nbits = 0 then none
  else bitCopybits b (bitRotateCopy b n b.nbits)

/-! ## What the operations do to the bits -/

@[simp] theorem nbits_bitPut (v : Bool) (b : Bitstr) (i : Nat) : (bitPut v b i).nbits = b.nbits :=
  rfl

theorem words_bitPut (v : Bool) (b : Bitstr) (i : Nat) :
    (bitPut v b i).words = putBit v b.words i := rfl

theorem bit_bitPut (v : Bool) (b : Bitstr) (i j : Nat) :
    (bitPut v b i).bit j = if j = i ∧ i < 32 * b.words.length then v else b.bit j :=
  getBit_putBit ..

theorem bit_bitAlloc (nbits i : Nat) : (bitAlloc nbits).bit i = false := getBit_replicate ..

/-- After the first loop the bits up to its end are written, and what is left
starts at a byte. -/
theorem headBits_spec {v : Bool} {b b' : Bitstr} {start len start' len' : Nat}
    (h : headBits v b start len = (b', start', len')) :
    b'.nbits = b.nbits ∧ b'.words.length = b.words.length ∧ start ≤ start' ∧
      start' + len' = start + len ∧ (len' = 0 ∨ start' % 8 = 0) ∧
      ∀ j, b'.bit j =
        if start ≤ j ∧ j < start' ∧ j < 32 * b.words.length then v else b.bit j := by
  induction len generalizing b start with
  | zero =>
    obtain ⟨rfl, rfl, rfl⟩ : b = b' ∧ start = start' ∧ 0 = len' := by simpa [headBits] using h
    refine ⟨rfl, rfl, Nat.le_refl _, rfl, Or.inl rfl, fun j => ?_⟩
    rw [if_neg (by omega)]
  | succ len ih =>
    rw [headBits] at h
    split at h
    · rename_i hbyte
      obtain ⟨rfl, rfl, rfl⟩ : b = b' ∧ start = start' ∧ len + 1 = len' := by simpa using h
      refine ⟨rfl, rfl, Nat.le_refl _, rfl, Or.inr hbyte, fun j => ?_⟩
      rw [if_neg (by omega)]
    · obtain ⟨hn, hl, hle, hsum, hend, hbit⟩ := ih h
      rw [words_bitPut, length_putBit] at hl hbit
      refine ⟨hn, hl, by omega, by omega, hend, fun j => ?_⟩
      rw [hbit, bit_bitPut]
      by_cases hj : j = start
      · subst hj
        rw [if_neg (by omega)]
        by_cases hin : j < 32 * b.words.length
        · rw [if_pos ⟨rfl, hin⟩, if_pos ⟨Nat.le_refl _, by omega, hin⟩]
        · rw [if_neg (fun h => hin h.2), if_neg (fun h => hin h.2.2)]
      · rw [if_neg (fun h : j = start ∧ _ => hj h.1)]
        by_cases hin : start + 1 ≤ j ∧ j < start' ∧ j < 32 * b.words.length
        · rw [if_pos hin, if_pos ⟨by omega, hin.2.1, hin.2.2⟩]
        · rw [if_neg hin, if_neg (fun h => hin ⟨by omega, h.2.1, h.2.2⟩)]

/-- After the second loop the bits from its end on are written, and what is
left ends at a byte. -/
theorem tailBits_spec {v : Bool} {b b' : Bitstr} {start len len' : Nat}
    (h : tailBits v b start len = (b', len')) :
    b'.nbits = b.nbits ∧ b'.words.length = b.words.length ∧ len' ≤ len ∧
      (len' = 0 ∨ (start + len') % 8 = 0) ∧
      ∀ j, b'.bit j =
        if start + len' ≤ j ∧ j < start + len ∧ j < 32 * b.words.length then v else b.bit j := by
  induction len generalizing b with
  | zero =>
    obtain ⟨rfl, rfl⟩ : b = b' ∧ 0 = len' := by simpa [tailBits] using h
    refine ⟨rfl, rfl, Nat.le_refl _, Or.inl rfl, fun j => ?_⟩
    rw [if_neg (by omega)]
  | succ len ih =>
    rw [tailBits] at h
    split at h
    · rename_i hbyte
      obtain ⟨rfl, rfl⟩ : b = b' ∧ len + 1 = len' := by simpa using h
      refine ⟨rfl, rfl, Nat.le_refl _, Or.inr hbyte, fun j => ?_⟩
      rw [if_neg (by omega)]
    · obtain ⟨hn, hl, hle, hend, hbit⟩ := ih h
      rw [words_bitPut, length_putBit] at hl hbit
      refine ⟨hn, hl, by omega, hend, fun j => ?_⟩
      rw [hbit, bit_bitPut]
      by_cases hj : j = start + len
      · subst hj
        rw [if_neg (by omega)]
        by_cases hin : start + len < 32 * b.words.length
        · rw [if_pos ⟨rfl, hin⟩, if_pos ⟨by omega, by omega, hin⟩]
        · rw [if_neg (fun h => hin h.2), if_neg (fun h => hin h.2.2)]
      · rw [if_neg (fun h : j = start + len ∧ _ => hj h.1)]
        by_cases hin : start + len' ≤ j ∧ j < start + len ∧ j < 32 * b.words.length
        · rw [if_pos hin, if_pos ⟨hin.1, by omega, hin.2.2⟩]
        · rw [if_neg hin, if_neg (fun h => hin ⟨h.1, by omega, h.2.2⟩)]

/-- The bits of a run are written, and no others. -/
theorem bitNput_spec (v : Bool) (b : Bitstr) (start len : Nat) :
    (bitNput v b start len).nbits = b.nbits ∧ ∀ j, (bitNput v b start len).bit j =
      if start ≤ j ∧ j < start + len ∧ j < 32 * b.words.length then v else b.bit j := by
  obtain ⟨⟨b₁, start₁, len₁⟩, hhead⟩ : ∃ r, headBits v b start len = r := ⟨_, rfl⟩
  obtain ⟨⟨b₂, len₂⟩, htail⟩ : ∃ r, tailBits v b₁ start₁ len₁ = r := ⟨_, rfl⟩
  obtain ⟨hn₁, hl₁, hle₁, hsum₁, hend₁, hbit₁⟩ := headBits_spec hhead
  obtain ⟨hn₂, hl₂, hle₂, hend₂, hbit₂⟩ := tailBits_spec htail
  rw [hl₁] at hbit₂
  simp only [bitNput, hhead, htail]
  -- what is left in the middle is a number of whole bytes
  have hbytes : len₂ ≤ 1 → len₂ = 0 := by omega
  split
  · rename_i hlen
    refine ⟨hn₂.trans hn₁, fun j => ?_⟩
    have hmem : (memsetBits v b₂ (start₁ / 8) (len₂ / 8)).bit j =
        if (8 * (start₁ / 8) ≤ j ∧ j < 8 * (start₁ / 8 + len₂ / 8)) ∧ j < 32 * b.words.length then v
        else b₂.bit j := by
      rw [← hl₁, ← hl₂]
      exact getBit_memset ..
    have hlo : 8 * (start₁ / 8) = start₁ := by omega
    have hhi : 8 * (start₁ / 8 + len₂ / 8) = start₁ + len₂ := by omega
    rw [hmem, hlo, hhi, hbit₂, hbit₁]
    by_cases hin : j < 32 * b.words.length
    · by_cases hrange : start ≤ j ∧ j < start + len
      · rw [if_pos (show start ≤ j ∧ j < start + len ∧ _ from ⟨hrange.1, hrange.2, hin⟩)]
        split
        · rfl
        · split
          · rfl
          · rw [if_pos ⟨hrange.1, by omega, hin⟩]
      · rw [if_neg (by omega), if_neg (by omega), if_neg (by omega), if_neg (by omega)]
    · rw [if_neg (fun h => hin h.2), if_neg (fun h => hin h.2.2), if_neg (fun h => hin h.2.2),
        if_neg (fun h => hin h.2.2)]
  · rename_i hlen
    have hzero := hbytes (by omega)
    refine ⟨hn₂.trans hn₁, fun j => ?_⟩
    rw [hbit₂, hbit₁]
    by_cases hin : j < 32 * b.words.length
    · by_cases hrange : start ≤ j ∧ j < start + len
      · rw [if_pos (show start ≤ j ∧ j < start + len ∧ _ from ⟨hrange.1, hrange.2, hin⟩)]
        split
        · rfl
        · rw [if_pos ⟨hrange.1, by omega, hin⟩]
      · rw [if_neg (by omega), if_neg (by omega), if_neg (by omega)]
    · rw [if_neg (fun h => hin h.2.2), if_neg (fun h => hin h.2.2), if_neg (fun h => hin h.2.2)]

/-- A run inside the bitmap. -/
theorem bit_bitNput {v : Bool} {b : Bitstr} {start len : Nat} (h : start + len ≤ b.nbits)
    (j : Nat) :
    (bitNput v b start len).bit j = if start ≤ j ∧ j < start + len then v else b.bit j := by
  rw [(bitNput_spec v b start len).2]
  by_cases hin : start ≤ j ∧ j < start + len
  · rw [if_pos hin, if_pos ⟨hin.1, hin.2, lt_words b (by omega)⟩]
  · rw [if_neg hin, if_neg (fun h => hin ⟨h.1, h.2.1⟩)]

theorem bit_bitNot {b b' : Bitstr} (h : bitNot b = some b') :
    b'.nbits = b.nbits ∧
      ∀ i, b'.bit i = (decide (i < 32 * b.words.length) && !b.bit i) := by
  unfold bitNot at h
  split at h
  · obtain rfl := Option.some.inj h
    refine ⟨rfl, fun i => ?_⟩
    by_cases hi : i < 32 * b.words.length
    · rw [decide_eq_true hi, Bool.true_and]
      exact getBit_not hi
    · rw [decide_eq_false hi, Bool.false_and]
      exact getBit_of_le (by rw [List.length_map]; exact Nat.le_of_not_lt hi)
  · cases h

theorem bit_bitZip {f : BitVec 32 → BitVec 32 → BitVec 32} {g : Bool → Bool → Bool}
    (hf : ∀ x y i, (f x y).getLsbD i = g (x.getLsbD i) (y.getLsbD i)) (hg : g false false = false)
    {b1 b2 b : Bitstr} (h : bitZip f b1 b2 = some b) :
    b.nbits = b1.nbits ∧ b1.nbits = b2.nbits ∧ ∀ i, b.bit i = g (b1.bit i) (b2.bit i) := by
  unfold bitZip at h
  split at h
  · rename_i hsize
    obtain rfl := Option.some.inj h
    refine ⟨rfl, hsize.1, fun i => ?_⟩
    exact getBit_zipWith hf hg (by rw [b1.length_words, b2.length_words, hsize.1]) i
  · cases h

theorem bit_reallocWords (words : List (BitVec 32)) (memory : Nat → BitVec 32) (n i : Nat) :
    getBit (reallocWords words memory n) i =
      if 32 * n ≤ i then false
      else if i < 32 * words.length then getBit words i
      else (memory (i / 32)).getLsbD (i % 32) := by
  have hlen : (reallocWords words memory n).length = n := by
    rw [reallocWords, List.length_map, List.length_range]
  by_cases hi : 32 * n ≤ i
  · rw [if_pos hi]
    exact getBit_of_le (by rwa [hlen])
  · rw [if_neg hi, getBit_of_lt (by rw [hlen]; omega)]
    simp only [reallocWords, List.getElem_map, List.getElem_range]
    by_cases hw : i < 32 * words.length
    · rw [if_pos hw, getBit_of_lt (by omega), List.getD_eq_getElem _ _ (by omega)]
    · rw [if_neg hw, List.getD_eq_default _ _ (by omega)]

/-- The bits of a bitmap of a new size: those it grows by are clear, the rest
is what `realloc` returned. -/
theorem bit_bitRealloc (b : Bitstr) (nbits : Nat) (memory : Nat → BitVec 32) :
    (bitRealloc b nbits memory).nbits = nbits ∧ ∀ i, (bitRealloc b nbits memory).bit i =
      if b.nbits ≤ i ∧ i < nbits then false
      else getBit (reallocWords b.words memory (bitstrWords nbits)) i := by
  unfold bitRealloc
  split
  · rename_i hgrow
    rw [bitNclear]
    refine ⟨(bitNput_spec ..).1, fun i => ?_⟩
    rw [bit_bitNput (by simp only; omega)]
    have hend : b.nbits + (nbits - 1 + 1 - b.nbits) = nbits := by omega
    rw [hend]
    rfl
  · rename_i hshrink
    refine ⟨rfl, fun i => ?_⟩
    rw [if_neg (by omega)]
    rfl

end Slurm.Bitstring
