import SlurmLite.Bitstring.Canonical

/-!
# Bitmaps as masks

`bit_fmt_hexmask` and `bit_fmt_binmask` print a bitmap with four bits and with
one bit a digit, the highest digit first; `bit_unfmt_hexmask` and
`bit_unfmt_binmask` read such a text from its end.

* **Digits**: `bit_setDigit` and `testBit_group` say what one digit reads and
  prints.
* **Texts**: `readDigits_group`: the digits of a bitmap set its bits again.
* **Round trip**: `masks_iff`: the sizes of the texts are `int`s, which is
  all that can go wrong.
-/

namespace Slurm.Bitstring

/-! ## Printing -/

/-- The bits of a digit, `g` from bit `i` on as far as the bitmap goes. -/
def group (b : Bitstr) (g i : Nat) : Nat :=
  (List.range g).foldl (fun current j =>
    if i + j < b.nbits ∧ bitTest b (i + j) = true then current ||| 2 ^ j else current) 0

/-- The digits of a bitmap, `charsize` of them, written from the last to the
first. -/
def maskText (g : Nat) (digit : Nat → Char) (b : Bitstr) (charsize : Nat) : List Char :=
  ((List.range charsize).map fun k => digit (group b g (g * k))).reverse

/-- A digit of four bits. -/
def hexDigit (current : Nat) : Char :=
  if current ≤ 9 then Char.ofNat (current + '0'.toNat) else Char.ofNat (current + 'A'.toNat - 10)

/-- A digit of one bit. -/
def binDigit (current : Nat) : Char := Char.ofNat (current + '0'.toNat)

/-- `bit_fmt_hexmask`; `none` where the number of digits overflows. -/
def bitFmtHexmask (b : Bitstr) : Option (List Char) :=
  if b.nbits + 3 ≤ maxBits then
    some ('0' :: 'x' :: maskText 4 hexDigit b ((b.nbits + 3) / 4))
  else none

/-- `bit_fmt_binmask`; `none` where the size of the text overflows. -/
def bitFmtBinmask (b : Bitstr) : Option (List Char) :=
  if b.nbits + 1 ≤ maxBits then some (maskText 1 binDigit b b.nbits) else none

/-! ## Reading -/

/-- The bits of a digit set, from bit `bitIndex` on as far as the bitmap goes. -/
def setDigit (g : Nat) (b : Bitstr) (bitIndex current : Nat) : Bitstr :=
  (List.range g).foldl (fun b j =>
    if current.testBit j = true ∧ bitIndex + j < b.nbits then bitSet b (bitIndex + j) else b) b

/-- The variables of the loops over a text. -/
structure MaskScan where
  bitmap : Bitstr
  bitIndex : Nat
  rc : Int
deriving DecidableEq

/-- One character of a text; a character without a value counts as 0 and is an
error. `none` is an overflow of the index. -/
def maskStep (g : Nat) (value : Char → Option Nat) (s : MaskScan) (c : Char) : Option MaskScan :=
  if s.bitIndex + g ≤ maxBits then
    match value c with
    | some current => some ⟨setDigit g s.bitmap s.bitIndex current, s.bitIndex + g, s.rc⟩
    | none => some ⟨setDigit g s.bitmap s.bitIndex 0, s.bitIndex + g, -1⟩
  else none

/-- The loop over a text from its end. -/
def readMask (g : Nat) (value : Char → Option Nat) (b : Bitstr) (str : List Char) :
    Option (Bitstr × Int) :=
  (str.reverse.foldlM (maskStep g value) ⟨b, 0, 0⟩).map fun s => (s.bitmap, s.rc)

/-- `isxdigit` and the value of the digit. -/
def hexValue (c : Char) : Option Nat :=
  if c.isDigit then some (c.toNat - '0'.toNat)
  else if ('a' ≤ c ∧ c ≤ 'f') ∨ ('A' ≤ c ∧ c ≤ 'F') then some (c.toUpper.toNat - ('A'.toNat - 10))
  else none

/-- `current -= '0'`, on a byte. -/
def binValue (c : Char) : Option Nat := some ((c.toNat + 256 - '0'.toNat) % 256)

/-- `bit_unfmt_hexmask`: the bitmap and the return code. -/
def bitUnfmtHexmask (b : Bitstr) (str : List Char) : Option (Bitstr × Int) :=
  readMask 4 hexValue b (if str.take 2 = "0x".toList then str.drop 2 else str)

/-- `bit_unfmt_binmask`: only the lowest bit of a character is used. -/
def bitUnfmtBinmask (b : Bitstr) (str : List Char) : Option (Bitstr × Int) :=
  readMask 1 binValue b str

/-! ## One digit -/

theorem testBit_group_fold (b : Bitstr) (i n j : Nat) :
    ((List.range n).foldl (fun current j =>
      if i + j < b.nbits ∧ bitTest b (i + j) = true then current ||| 2 ^ j
      else current) 0).testBit j = true ↔ j < n ∧ i + j < b.nbits ∧ b.bit (i + j) = true := by
  induction n with
  | zero => simp
  | succ n ih =>
    rw [List.range_succ, List.foldl_append, List.foldl_cons, List.foldl_nil]
    by_cases hset : i + n < b.nbits ∧ bitTest b (i + n) = true
    · rw [if_pos hset, Nat.testBit_or, Bool.or_eq_true, ih, Nat.testBit_two_pow,
        decide_eq_true_eq]
      constructor
      · rintro (⟨hj, hbit⟩ | rfl)
        · exact ⟨by omega, hbit⟩
        · exact ⟨Nat.lt_succ_self n, hset⟩
      · rintro ⟨hj, hbit⟩
        by_cases hjn : n = j
        · exact Or.inr hjn
        · exact Or.inl ⟨by omega, hbit⟩
    · rw [if_neg hset, ih]
      constructor
      · rintro ⟨hj, hbit⟩
        exact ⟨by omega, hbit⟩
      · rintro ⟨hj, hbit⟩
        have hjn : j ≠ n := by
          rintro rfl
          exact hset hbit
        exact ⟨by omega, hbit⟩

theorem testBit_group (b : Bitstr) (g i j : Nat) :
    (group b g i).testBit j = true ↔ j < g ∧ i + j < b.nbits ∧ b.bit (i + j) = true :=
  testBit_group_fold b i g j

theorem group_lt (b : Bitstr) (g i : Nat) : group b g i < 2 ^ g := by
  apply Nat.lt_pow_two_of_testBit
  intro j hj
  by_contra hset
  rw [Bool.not_eq_false, testBit_group] at hset
  omega

theorem setDigit_spec (b : Bitstr) (bitIndex current n : Nat) :
    let b' := (List.range n).foldl (fun b j =>
      if current.testBit j = true ∧ bitIndex + j < b.nbits then bitSet b (bitIndex + j) else b) b
    b'.nbits = b.nbits ∧ ∀ i, b'.bit i = true ↔
      b.bit i = true ∨
        ∃ j < n, current.testBit j = true ∧ bitIndex + j < b.nbits ∧ i = bitIndex + j := by
  induction n with
  | zero => exact ⟨rfl, fun i => by simp⟩
  | succ n ih =>
    simp only [List.range_succ, List.foldl_append, List.foldl_cons, List.foldl_nil]
    simp only at ih
    obtain ⟨hn, hbit⟩ := ih
    by_cases hset : current.testBit n = true ∧ bitIndex + n < b.nbits
    · have hin := lt_words _ (hn ▸ hset.2)
      rw [if_pos (by rw [hn]; exact hset)]
      refine ⟨hn, fun i => ?_⟩
      rw [bitSet, bit_bitPut]
      by_cases hi : i = bitIndex + n
      · rw [if_pos ⟨hi, hin⟩]
        exact iff_of_true rfl (Or.inr ⟨n, Nat.lt_succ_self n, hset.1, hset.2, hi⟩)
      · rw [if_neg (fun h => hi h.1), hbit]
        apply or_congr Iff.rfl
        constructor
        · rintro ⟨j, hj, h⟩
          exact ⟨j, by omega, h⟩
        · rintro ⟨j, hj, htest, hlt, rfl⟩
          exact ⟨j, by omega, htest, hlt, rfl⟩
    · rw [if_neg (by rw [hn]; exact hset)]
      refine ⟨hn, fun i => ?_⟩
      rw [hbit]
      apply or_congr Iff.rfl
      constructor
      · rintro ⟨j, hj, h⟩
        exact ⟨j, by omega, h⟩
      · rintro ⟨j, hj, htest, hlt, rfl⟩
        have hjn : j ≠ n := by
          rintro rfl
          exact hset ⟨htest, hlt⟩
        exact ⟨j, by omega, htest, hlt, rfl⟩

theorem nbits_setDigit (g : Nat) (b : Bitstr) (bitIndex current : Nat) :
    (setDigit g b bitIndex current).nbits = b.nbits := (setDigit_spec b bitIndex current g).1

theorem bit_setDigit (g : Nat) (b : Bitstr) (bitIndex current i : Nat) :
    (setDigit g b bitIndex current).bit i = true ↔ b.bit i = true ∨
      ∃ j < g, current.testBit j = true ∧ bitIndex + j < b.nbits ∧ i = bitIndex + j :=
  (setDigit_spec b bitIndex current g).2 i

/-- Each digit of four bits reads back. -/
theorem hexValue_hexDigit {v : Nat} (h : v < 16) : hexValue (hexDigit v) = some v := by
  interval_cases v <;> rfl

theorem binValue_binDigit {v : Nat} (h : v < 2) : binValue (binDigit v) = some v := by
  interval_cases v <;> rfl

/-! ## Texts -/

/-- The digits of `b` from digit `k` on, read into a bitmap of its size, set
the bits of `b` they stand for. -/
theorem readDigits_group {g : Nat} {digit : Nat → Char} {value : Char → Option Nat}
    (hdigit : ∀ v < 2 ^ g, value (digit v) = some v) (b c : Bitstr) (hn : c.nbits = b.nbits)
    (rc : Int) (n k : Nat) (hsize : g * (k + n) ≤ maxBits) :
    ∃ c', ((List.range' k n).map fun k => digit (group b g (g * k))).foldlM (maskStep g value)
        ⟨c, g * k, rc⟩ = some ⟨c', g * (k + n), rc⟩ ∧
      c'.nbits = b.nbits ∧ ∀ i, c'.bit i = true ↔ c.bit i = true ∨
        (g * k ≤ i ∧ i < g * (k + n) ∧ i < b.nbits ∧ b.bit i = true) := by
  induction n generalizing k c with
  | zero =>
    refine ⟨c, rfl, hn, fun i => ?_⟩
    constructor
    · exact Or.inl
    · rintro (h | ⟨hlo, hhi, -⟩)
      · exact h
      · rw [Nat.add_zero] at hhi
        omega
  | succ n ih =>
    have hnext : g * k + g = g * (k + 1) := (Nat.mul_succ g k).symm
    have hend : k + (n + 1) = k + 1 + n := by omega
    have hstep : maskStep g value ⟨c, g * k, rc⟩ (digit (group b g (g * k))) =
        some ⟨setDigit g c (g * k) (group b g (g * k)), g * (k + 1), rc⟩ := by
      have hle : g * (k + 1) ≤ g * (k + (n + 1)) := Nat.mul_le_mul_left g (by omega)
      rw [maskStep, if_pos (by simp only; omega), hdigit _ (group_lt b g _)]
      simp only [hnext]
    obtain ⟨c', hrest, hn', hbit⟩ := ih (setDigit g c (g * k) (group b g (g * k)))
      ((nbits_setDigit ..).trans hn) (k + 1) (by rwa [← hend])
    refine ⟨c', ?_, hn', fun i => ?_⟩
    · rw [List.range'_succ, List.map_cons, List.foldlM_cons, hstep, Option.bind_eq_bind,
        Option.bind_some, hrest, hend]
    · rw [hbit, bit_setDigit, hn, or_assoc]
      apply or_congr Iff.rfl
      rw [hend, ← hnext]
      have hle : g * k + g ≤ g * (k + 1 + n) := by
        rw [hnext]
        exact Nat.mul_le_mul_left g (by omega)
      constructor
      · rintro (⟨j, hj, htest, hlt, rfl⟩ | ⟨hlo, hhi, hset⟩)
        · rw [testBit_group] at htest
          exact ⟨by omega, by omega, hlt, htest.2.2⟩
        · exact ⟨by omega, hhi, hset⟩
      · rintro ⟨hlo, hhi, hlt, hset⟩
        by_cases hfirst : i < g * k + g
        · have hi : g * k + (i - g * k) = i := by omega
          refine Or.inl ⟨i - g * k, by omega, ?_, by omega, hi.symm⟩
          rw [testBit_group, hi]
          exact ⟨by omega, hlt, hset⟩
        · exact Or.inr ⟨by omega, hhi, hlt, hset⟩

/-- A bitmap of `nbits` bits, all clear. -/
def Cleared (c : Bitstr) (nbits : Nat) : Prop := c.nbits = nbits ∧ ∀ i < nbits, bitTest c i = false

/-- The digits of a bitmap read into a cleared one. -/
theorem readMask_maskText {g : Nat} {digit : Nat → Char} {value : Char → Option Nat}
    (hdigit : ∀ v < 2 ^ g, value (digit v) = some v) {b c : Bitstr} (hc : Cleared c b.nbits)
    {charsize : Nat} (hall : b.nbits ≤ g * charsize) (hsize : g * charsize ≤ maxBits) :
    ∃ b', readMask g value c (maskText g digit b charsize) = some (b', 0) ∧ SameBits b' b := by
  obtain ⟨b', hread, hn, hbit⟩ := readDigits_group hdigit b c hc.1 0 charsize 0
    (by rwa [Nat.zero_add])
  refine ⟨b', ?_, hn, fun i hi => ?_⟩
  · rw [readMask, maskText, List.reverse_reverse, List.range_eq_range']
    rw [Nat.mul_zero] at hread
    rw [hread]
    rfl
  · have hlt : i < b.nbits := hn ▸ hi
    have hclear : c.bit i = false := hc.2 i hlt
    apply Bool.eq_iff_iff.mpr
    show b'.bit i = true ↔ b.bit i = true
    rw [hbit, hclear, Nat.zero_add, Nat.mul_zero]
    constructor
    · rintro (h | ⟨-, -, -, h⟩)
      · cases h
      · exact h
    · exact fun h => Or.inr ⟨Nat.zero_le _, by omega, hlt, h⟩

/-- A text of `b` is there, and read into a cleared bitmap of the same size it
succeeds and gives `b`. -/
def MaskRoundTrip (fmt : Bitstr → Option (List Char))
    (unfmt : Bitstr → List Char → Option (Bitstr × Int)) (b : Bitstr) : Prop :=
  ∃ text, fmt b = some text ∧
    ∀ c, Cleared c b.nbits → ∃ b', unfmt c text = some (b', 0) ∧ SameBits b' b

theorem hexmask_roundTrip {b : Bitstr} (h : b.nbits + 3 ≤ maxBits) :
    MaskRoundTrip bitFmtHexmask bitUnfmtHexmask b := by
  refine ⟨_, if_pos h, fun c hc => ?_⟩
  show ∃ b', readMask 4 hexValue c (maskText 4 hexDigit b ((b.nbits + 3) / 4)) = some (b', 0) ∧ _
  have hsize : b.nbits + 3 ≤ 2147483647 := h
  apply readMask_maskText (fun v hv => hexValue_hexDigit hv) hc (by omega)
  show 4 * ((b.nbits + 3) / 4) ≤ 2147483647
  omega

theorem binmask_roundTrip {b : Bitstr} (h : b.nbits + 1 ≤ maxBits) :
    MaskRoundTrip bitFmtBinmask bitUnfmtBinmask b := by
  refine ⟨_, if_pos h, fun c hc => ?_⟩
  apply readMask_maskText (fun v hv => binValue_binDigit hv) hc
  · rw [Nat.one_mul]
  · rw [Nat.one_mul]
    omega

/-- Both masks of a bitmap read back where the sizes of their texts can be
computed. -/
theorem masks_iff (b : Bitstr) :
    (MaskRoundTrip bitFmtHexmask bitUnfmtHexmask b ∧
      MaskRoundTrip bitFmtBinmask bitUnfmtBinmask b) ↔ b.nbits ≤ 2147483644 := by
  constructor
  · rintro ⟨⟨text, htext, -⟩, -⟩
    rw [bitFmtHexmask, Option.ite_none_right_eq_some] at htext
    have hsize : b.nbits + 3 ≤ 2147483647 := htext.1
    omega
  · intro h
    constructor
    · apply hexmask_roundTrip
      show b.nbits + 3 ≤ 2147483647
      omega
    · apply binmask_roundTrip
      show b.nbits + 1 ≤ 2147483647
      omega

example : bitFmtHexmask ⟨6, [0x2B#32], rfl⟩ = some "0x2B".toList := by decide

/-- A size whose number of digits overflows. -/
theorem not_masks_largest :
    ¬ MaskRoundTrip bitFmtHexmask bitUnfmtHexmask (bitAlloc 2147483645) := by
  rintro ⟨text, htext, -⟩
  rw [bitFmtHexmask, Option.ite_none_right_eq_some] at htext
  have hsize : 2147483645 + 3 ≤ 2147483647 := htext.1
  omega

end Slurm.Bitstring
