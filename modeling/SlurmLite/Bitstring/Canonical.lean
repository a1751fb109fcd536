import SlurmLite.Base.Run
import SlurmLite.Bitstring.Ops

/-!
# Comparing bitmaps

`bit_equal` and `bit_super_set` compare whole words, so they speak about the
bits of a bitmap only where the unused bits of its last word are clear.

* **Canonical form**: `Canonical` is kept by every operation but `bit_not` and
  `bit_realloc`, which keep it under a condition of their own.
* **Comparisons**: on canonical bitmaps `bitEqual_iff` and `bitSuperSet_iff`
  read the bits.
* **Runs**: `comparisons_right`: in a run whose complements and reallocations
  meet that condition, the comparisons are right for all bitmaps there are.
-/

namespace Slurm.Bitstring

open Base.Words Base.Run

/-- The bits past the size are clear. -/
def Canonical (b : Bitstr) : Prop := ∀ i, b.nbits ≤ i → b.bit i = false

theorem canonical_bitAlloc (nbits : Nat) : Canonical (bitAlloc nbits) := fun i _ =>
  bit_bitAlloc nbits i

theorem Canonical.bitPut {b : Bitstr} (h : Canonical b) (v : Bool) {i : Nat} (hi : i < b.nbits) :
    Canonical (bitPut v b i) := by
  intro j hj
  rw [nbits_bitPut] at hj
  rw [bit_bitPut, if_neg (by omega)]
  exact h j hj

theorem Canonical.bitNput {b : Bitstr} (h : Canonical b) (v : Bool) {start len : Nat}
    (hlen : start + len ≤ b.nbits) : Canonical (bitNput v b start len) := by
  intro j hj
  rw [(bitNput_spec v b start len).1] at hj
  rw [bit_bitNput hlen, if_neg (by omega)]
  exact h j hj

theorem Canonical.bitZip {f : BitVec 32 → BitVec 32 → BitVec 32} {g : Bool → Bool → Bool}
    (hf : ∀ x y i, (f x y).getLsbD i = g (x.getLsbD i) (y.getLsbD i)) (hg : g false false = false)
    {b1 b2 b : Bitstr} (h1 : Canonical b1) (h2 : Canonical b2) (h : bitZip f b1 b2 = some b) :
    Canonical b := by
  obtain ⟨hn, hsize, hbit⟩ := bit_bitZip hf hg h
  intro i hi
  rw [hbit, h1 i (by omega), h2 i (by omega), hg]

/-- A complement keeps the form where the last word is used up. -/
theorem canonical_bitNot {b b' : Bitstr} (hsize : b.nbits % 32 = 0) (h : bitNot b = some b') :
    Canonical b' := by
  obtain ⟨hn, hbit⟩ := bit_bitNot h
  intro i hi
  rw [hbit, decide_eq_false (by rw [b.length_words, bitstrWords]; omega), Bool.false_and]

/-- The bits of the last word of a bitmap of a new size that are past that size
are clear: in the old bitmap where it had that word, else in the memory. -/
def TailClear (b : Bitstr) (nbits : Nat) (memory : Nat → BitVec 32) : Prop :=
  ∀ i, nbits ≤ i → i < 32 * bitstrWords nbits →
    if i < 32 * b.words.length then b.bit i = false
    else (memory (i / 32)).getLsbD (i % 32) = false

theorem canonical_bitRealloc {b : Bitstr} {nbits : Nat} {memory : Nat → BitVec 32}
    (htail : TailClear b nbits memory) : Canonical (bitRealloc b nbits memory) := by
  obtain ⟨hn, hbit⟩ := bit_bitRealloc b nbits memory
  intro i hi
  rw [hn] at hi
  rw [hbit, if_neg (by omega), bit_reallocWords]
  split
  · rfl
  · rename_i hin
    have hclear := htail i hi (by omega)
    split
    · rename_i hold
      rwa [if_pos hold] at hclear
    · rename_i hnew
      rwa [if_neg hnew] at hclear

/-! ## Rotation -/

theorem rotation_lt (n : Int) {nbits : Nat} (h : 0 < nbits) : rotation n nbits < nbits := by
  have hlt := Int.tmod_lt_of_pos n (show (0 : Int) < (nbits : Int) by omega)
  have hgt := Int.lt_tmod_of_pos n (show (0 : Int) < (nbits : Int) by omega)
  simp only [rotation]
  split <;> omega

theorem canonical_copyBit {b new : Bitstr} {i j : Nat} (h : Canonical new) (hj : j < new.nbits) :
    Canonical (copyBit b new i j) ∧ (copyBit b new i j).nbits = new.nbits := by
  unfold copyBit
  split
  · exact ⟨h.bitPut true hj, rfl⟩
  · exact ⟨h, rfl⟩

theorem canonical_copyBits {b new : Bitstr} {source target : Nat → Nat} {is : List Nat}
    (h : Canonical new) (hj : ∀ i ∈ is, target i < new.nbits) :
    Canonical (is.foldl (fun new i => copyBit b new (source i) (target i)) new) ∧
      (is.foldl (fun new i => copyBit b new (source i) (target i)) new).nbits = new.nbits := by
  induction is generalizing new with
  | nil => exact ⟨h, rfl⟩
  | cons i is ih =>
    obtain ⟨hcopy, hn⟩ := @canonical_copyBit b new (source i) _ h (hj i List.mem_cons_self)
    obtain ⟨hrest, hn'⟩ := ih hcopy fun k hk => by
      rw [hn]
      exact hj k (List.mem_cons_of_mem _ hk)
    exact ⟨hrest, hn'.trans hn⟩

/-- A rotated copy is made of bits inside its size. -/
theorem canonical_bitRotateCopy (b : Bitstr) (n : Int) {nbits : Nat} (hpos : 0 < nbits)
    (hle : b.nbits ≤ nbits) :
    Canonical (bitRotateCopy b n nbits) ∧ (bitRotateCopy b n nbits).nbits = nbits := by
  have hrot := rotation_lt n hpos
  have hclear : Canonical (bitNclear (bitAlloc nbits) 0 (nbits - 1)) :=
    (canonical_bitAlloc nbits).bitNput false (by show 0 + (nbits - 1 + 1 - 0) ≤ nbits; omega)
  have hn : (bitNclear (bitAlloc nbits) 0 (nbits - 1)).nbits = nbits := (bitNput_spec ..).1
  simp only [bitRotateCopy]
  -- bits shifting up, then those that wrap around
  obtain ⟨hup, hnup⟩ := @canonical_copyBits b _ (fun i => i) (fun i => i + rotation n nbits)
    (List.range (b.nbits - (rotation n nbits - (nbits - b.nbits)))) hclear fun i hi => by
      rw [List.mem_range] at hi
      omega
  obtain ⟨hall, hnall⟩ := @canonical_copyBits b _
    (fun i => b.nbits - (rotation n nbits - (nbits - b.nbits)) + i) (fun i => i)
    (List.range (rotation n nbits - (nbits - b.nbits))) hup fun i hi => by
      rw [List.mem_range] at hi
      omega
  exact ⟨hall, hnall.trans (hnup.trans hn)⟩

theorem canonical_bitRotate {b b' : Bitstr} (h : Canonical b) {n : Int}
    (hrot : bitRotate b n = some b') : Canonical b' := by
  unfold bitRotate at hrot
  split at hrot
  · obtain rfl := Option.some.inj hrot
    exact h
  · split at hrot
    · cases hrot
    · rename_i hpos
      unfold bitCopybits at hrot
      split at hrot
      · obtain rfl := Option.some.inj hrot
        exact (canonical_bitRotateCopy b n (Nat.pos_of_ne_zero hpos) (Nat.le_refl _)).1
      · cases hrot

/-! ## The comparisons -/

/-- Two bitmaps of one size with the same bits. -/
def SameBits (b1 b2 : Bitstr) : Prop :=
  b1.nbits = b2.nbits ∧ ∀ i < b1.nbits, bitTest b1 i = bitTest b2 i

instance (b1 b2 : Bitstr) : Decidable (SameBits b1 b2) :=
  inferInstanceAs (Decidable (b1.nbits = b2.nbits ∧ ∀ i < b1.nbits, bitTest b1 i = bitTest b2 i))

/-- Every bit of `b1` is one of `b2`. -/
def Subset (b1 b2 : Bitstr) : Prop := ∀ i < b1.nbits, bitTest b1 i = true → bitTest b2 i = true

theorem bitEqual_iff {b1 b2 : Bitstr} (h1 : Canonical b1) (h2 : Canonical b2)
    (hsize : b1.nbits ≤ maxLoop) : bitEqual b1 b2 = some 1 ↔ SameBits b1 b2 := by
  by_cases heq : b1.nbits ≠ b2.nbits
  · rw [bitEqual, if_pos heq]
    exact ⟨fun h => absurd (Option.some.inj h) (by decide), fun h => absurd h.1 heq⟩
  · rw [bitEqual, if_neg heq, if_pos hsize]
    rw [not_not] at heq
    have hwords : b1.words = b2.words ↔ SameBits b1 b2 := by
      constructor
      · exact fun h => ⟨heq, fun i _ => congrArg (getBit · i) h⟩
      · intro h
        refine ext_getBit (by rw [b1.length_words, b2.length_words, heq]) fun i => ?_
        by_cases hi : i < b1.nbits
        · exact h.2 i hi
        · exact (h1 i (by omega)).trans (h2 i (by omega)).symm
    by_cases hw : b1.words = b2.words
    · rw [if_pos hw]
      exact iff_of_true rfl (hwords.mp hw)
    · rw [if_neg hw]
      exact iff_of_false (fun h => absurd (Option.some.inj h) (by decide)) fun h =>
        hw (hwords.mpr h)

theorem bitSuperSet_iff {b1 b2 : Bitstr} (h1 : Canonical b1) (heq : b1.nbits = b2.nbits)
    (hsize : b1.nbits ≤ maxLoop) : bitSuperSet b1 b2 = some 1 ↔ Subset b1 b2 := by
  unfold bitSuperSet
  rw [if_pos ⟨heq, hsize⟩]
  have hlen : b1.words.length = b2.words.length := by rw [b1.length_words, b2.length_words, heq]
  have hand : ∀ i, getBit (List.zipWith (· &&& ·) b1.words b2.words) i =
      (b1.bit i && b2.bit i) :=
    getBit_zipWith (fun x y i => BitVec.getLsbD_and) rfl hlen
  have hwords : List.zipWith (· &&& ·) b1.words b2.words = b1.words ↔ Subset b1 b2 := by
    constructor
    · intro h i _ hset
      have hbit := hand i
      rw [h, show getBit b1.words i = true from hset, show b1.bit i = true from hset,
        Bool.true_and] at hbit
      exact hbit.symm
    · intro h
      refine ext_getBit (by rw [List.length_zipWith, hlen, Nat.min_self]) fun i => ?_
      rw [hand]
      show (b1.bit i && b2.bit i) = b1.bit i
      by_cases hi : i < b1.nbits
      · cases hset : b1.bit i with
        | false => rfl
        | true => exact h i hi hset
      · rw [h1 i (by omega), Bool.false_and]
  by_cases hw : List.zipWith (· &&& ·) b1.words b2.words = b1.words
  · rw [if_pos hw]
    exact iff_of_true rfl (hwords.mp hw)
  · rw [if_neg hw]
    exact iff_of_false (fun h => absurd (Option.some.inj h) (by decide)) fun h => hw (hwords.mpr h)

/-! ## Runs -/

/-- The bitmaps a program holds, by name. -/
abbrev Pool := Nat → Option Bitstr

/-- The operations on them. `realloc` is given what the memory it gets holds. -/
inductive Op where
  | alloc (h nbits : Nat)
  | set (h i : Nat)
  | clear (h i : Nat)
  | nset (h start stop : Nat)
  | nclear (h start stop : Nat)
  | not (h : Nat)
  | and (h1 h2 : Nat)
  | or (h1 h2 : Nat)
  | realloc (h nbits : Nat) (memory : Nat → BitVec 32)
  | copy (h new : Nat)
  | rotate (h : Nat) (n : Int)

/-- The bitmap `h` replaced. -/
def Pool.put (pool : Pool) (h : Nat) (b : Bitstr) : Pool := Function.update pool h (some b)

/-- The largest `bitoff_t`. -/
abbrev maxBits : Nat := 2147483647

/-- One operation; `none` where an assertion of the function fails. -/
def step (pool : Pool) : Op → Option Pool
  | .alloc h nbits => if nbits ≤ maxBits then some (pool.put h (bitAlloc nbits)) else none
  | .set h i =>
    (pool h).bind fun b => if i < b.nbits then some (pool.put h (bitSet b i)) else none
  | .clear h i =>
    (pool h).bind fun b => if i < b.nbits then some (pool.put h (bitClear b i)) else none
  | .nset h start stop =>
    (pool h).bind fun b =>
      if start < b.nbits ∧ stop < b.nbits then some (pool.put h (bitNset b start stop)) else none
  | .nclear h start stop =>
    (pool h).bind fun b =>
      if start < b.nbits ∧ stop < b.nbits then some (pool.put h (bitNclear b start stop))
      else none
  | .not h => (pool h).bind fun b => (bitNot b).map (pool.put h)
  | .and h1 h2 =>
    (pool h1).bind fun b1 => (pool h2).bind fun b2 => (bitAnd b1 b2).map (pool.put h1)
  | .or h1 h2 =>
    (pool h1).bind fun b1 => (pool h2).bind fun b2 => (bitOr b1 b2).map (pool.put h1)
  | .realloc h nbits memory =>
    (pool h).bind fun b =>
      if nbits ≤ maxBits then some (pool.put h (bitRealloc b nbits memory)) else none
  | .copy h new => (pool h).map fun b => pool.put new (bitCopy b)
  | .rotate h n => (pool h).bind fun b => (bitRotate b n).map (pool.put h)

/-- The condition on an operation: sizes the loops over words can handle,
complements of whole words only, and nothing in the unused part of a
reallocated bitmap's last word. -/
def Tidy (pool : Pool) : Op → Prop
  | .alloc _ nbits => nbits ≤ maxLoop
  | .not h => ∀ b, pool h = some b → b.nbits % 32 = 0
  | .realloc h nbits memory => nbits ≤ maxLoop ∧ ∀ b, pool h = some b → TailClear b nbits memory
  | _ => True

/-- Every bitmap is canonical and of a size the loops over words can handle. -/
def AllCanonical (pool : Pool) : Prop :=
  ∀ h b, pool h = some b → Canonical b ∧ b.nbits ≤ maxLoop

/-- The comparisons say what the bits say. -/
def ComparisonsRight (pool : Pool) : Prop :=
  ∀ h1 h2 b1 b2, pool h1 = some b1 → pool h2 = some b2 →
    (bitEqual b1 b2 = some 1 ↔ SameBits b1 b2) ∧
    (b1.nbits = b2.nbits → (bitSuperSet b1 b2 = some 1 ↔ Subset b1 b2))

theorem AllCanonical.put {pool : Pool} (hpool : AllCanonical pool) {h : Nat} {b : Bitstr}
    (hb : Canonical b) (hsize : b.nbits ≤ maxLoop) : AllCanonical (pool.put h b) := by
  intro k c hk
  by_cases hkh : k = h
  · subst hkh
    rw [Pool.put, Function.update_self] at hk
    obtain rfl := Option.some.inj hk
    exact ⟨hb, hsize⟩
  · rw [Pool.put, Function.update_of_ne hkh] at hk
    exact hpool k c hk

theorem nbits_bitRotate {b b' : Bitstr} {n : Int} (h : bitRotate b n = some b') :
    b'.nbits = b.nbits := by
  unfold bitRotate at h
  split at h
  · rw [Option.some.inj h]
  · split at h
    · cases h
    · unfold bitCopybits at h
      split at h
      · rename_i hsize
        rw [← Option.some.inj h]
        exact hsize
      · cases h

/-- A tidy operation keeps all bitmaps canonical. -/
theorem AllCanonical.step {pool pool' : Pool} {op : Op} (hpool : AllCanonical pool)
    (htidy : Tidy pool op) (h : step pool op = some pool') : AllCanonical pool' := by
  cases op with
  | alloc k nbits =>
    obtain ⟨-, h⟩ := Option.ite_none_right_eq_some.mp h
    obtain rfl := Option.some.inj h
    exact hpool.put (canonical_bitAlloc nbits) htidy
  | set k i =>
    obtain ⟨b, hb, h⟩ := Option.bind_eq_some_iff.mp h
    obtain ⟨hi, h⟩ := Option.ite_none_right_eq_some.mp h
    obtain rfl := Option.some.inj h
    obtain ⟨hcan, hsize⟩ := hpool k b hb
    exact hpool.put (hcan.bitPut true hi) hsize
  | clear k i =>
    obtain ⟨b, hb, h⟩ := Option.bind_eq_some_iff.mp h
    obtain ⟨hi, h⟩ := Option.ite_none_right_eq_some.mp h
    obtain rfl := Option.some.inj h
    obtain ⟨hcan, hsize⟩ := hpool k b hb
    exact hpool.put (hcan.bitPut false hi) hsize
  | nset k start stop =>
    obtain ⟨b, hb, h⟩ := Option.bind_eq_some_iff.mp h
    obtain ⟨hi, h⟩ := Option.ite_none_right_eq_some.mp h
    obtain rfl := Option.some.inj h
    obtain ⟨hcan, hsize⟩ := hpool k b hb
    exact hpool.put (hcan.bitNput true (by omega)) ((bitNput_spec ..).1.trans_le hsize)
  | nclear k start stop =>
    obtain ⟨b, hb, h⟩ := Option.bind_eq_some_iff.mp h
    obtain ⟨hi, h⟩ := Option.ite_none_right_eq_some.mp h
    obtain rfl := Option.some.inj h
    obtain ⟨hcan, hsize⟩ := hpool k b hb
    exact hpool.put (hcan.bitNput false (by omega)) ((bitNput_spec ..).1.trans_le hsize)
  | not k =>
    obtain ⟨b, hb, h⟩ := Option.bind_eq_some_iff.mp h
    obtain ⟨b', hnot, rfl⟩ := Option.map_eq_some_iff.mp h
    exact hpool.put (canonical_bitNot (htidy b hb) hnot)
      ((bit_bitNot hnot).1.trans_le (hpool k b hb).2)
  | and k k' =>
    obtain ⟨b, hb, h⟩ := Option.bind_eq_some_iff.mp h
    obtain ⟨b', hb', h⟩ := Option.bind_eq_some_iff.mp h
    obtain ⟨c, hand, rfl⟩ := Option.map_eq_some_iff.mp h
    have hg : ∀ (x y : BitVec 32) (i : Nat),
        (x &&& y).getLsbD i = (x.getLsbD i && y.getLsbD i) := fun x y i => BitVec.getLsbD_and
    exact hpool.put (Canonical.bitZip hg rfl (hpool k b hb).1 (hpool k' b' hb').1 hand)
      ((bit_bitZip hg rfl hand).1.trans_le (hpool k b hb).2)
  | or k k' =>
    obtain ⟨b, hb, h⟩ := Option.bind_eq_some_iff.mp h
    obtain ⟨b', hb', h⟩ := Option.bind_eq_some_iff.mp h
    obtain ⟨c, hor, rfl⟩ := Option.map_eq_some_iff.mp h
    have hg : ∀ (x y : BitVec 32) (i : Nat),
        (x ||| y).getLsbD i = (x.getLsbD i || y.getLsbD i) := fun x y i => BitVec.getLsbD_or
    exact hpool.put (Canonical.bitZip hg rfl (hpool k b hb).1 (hpool k' b' hb').1 hor)
      ((bit_bitZip hg rfl hor).1.trans_le (hpool k b hb).2)
  | realloc k nbits memory =>
    obtain ⟨b, hb, h⟩ := Option.bind_eq_some_iff.mp h
    obtain ⟨-, h⟩ := Option.ite_none_right_eq_some.mp h
    obtain rfl := Option.some.inj h
    exact hpool.put (canonical_bitRealloc (htidy.2 b hb))
      ((bit_bitRealloc b nbits memory).1.trans_le htidy.1)
  | copy k new =>
    obtain ⟨b, hb, rfl⟩ := Option.map_eq_some_iff.mp h
    exact hpool.put (hpool k b hb).1 (hpool k b hb).2
  | rotate k n =>
    obtain ⟨b, hb, h⟩ := Option.bind_eq_some_iff.mp h
    obtain ⟨b', hrot, rfl⟩ := Option.map_eq_some_iff.mp h
    exact hpool.put (canonical_bitRotate (hpool k b hb).1 hrot)
      ((nbits_bitRotate hrot).trans_le (hpool k b hb).2)

/-- Where all bitmaps are canonical, the comparisons are right. -/
theorem AllCanonical.comparisonsRight {pool : Pool} (hpool : AllCanonical pool) :
    ComparisonsRight pool := by
  intro h1 h2 b1 b2 hb1 hb2
  obtain ⟨hcan1, hsize1⟩ := hpool h1 b1 hb1
  obtain ⟨hcan2, -⟩ := hpool h2 b2 hb2
  exact ⟨bitEqual_iff hcan1 hcan2 hsize1, fun heq => bitSuperSet_iff hcan1 heq hsize1⟩

/-- No bitmaps. -/
def noBitmaps : Pool := fun _ => none

/-- In a run of tidy operations the comparisons are right for every two
bitmaps of every state reached. -/
theorem comparisons_right {ops : List Op} {pool : Pool} (htidy : Guarded step Tidy noBitmaps ops)
    (hrun : run step noBitmaps ops = some pool) : ComparisonsRight pool := by
  have hall : AllCanonical pool :=
    reached_of_guarded (fun s a s' hs hok h => AllCanonical.step hs hok h)
      (fun h b hb => by cases hb) htidy hrun
  exact hall.comparisonsRight

/-- Five bits set one way, and five bits complemented. -/
def fiveBits : List Op := [.alloc 0 5, .not 0, .alloc 1 5, .nset 1 0 4]

/-- The two bitmaps have the same bits and do not compare equal. -/
theorem fiveBits_wrong : ∃ pool, run step noBitmaps fiveBits = some pool ∧
    ¬ ComparisonsRight pool := by
  refine ⟨_, rfl, fun h => ?_⟩
  obtain ⟨heq, -⟩ := h 0 1 ⟨5, [BitVec.allOnes 32], rfl⟩ ⟨5, [31#32], rfl⟩ (by decide) (by decide)
  exact absurd (heq.mpr (by decide)) (by decide)

/-- Two ways to fill one word. -/
theorem oneWord_right : ∃ pool,
    run step noBitmaps [.alloc 0 32, .not 0, .alloc 1 32, .nset 1 0 31] = some pool ∧
    ComparisonsRight pool := by
  refine ⟨_, rfl, @comparisons_right [.alloc 0 32, .not 0, .alloc 1 32, .nset 1 0 31] _ ?_ rfl⟩
  have hsize : 32 ≤ maxLoop := by decide
  refine ⟨hsize, ?_⟩
  rintro _ ⟨⟩
  refine ⟨?_, ?_⟩
  · rintro b hb
    obtain rfl := Option.some.inj hb
    rfl
  · rintro _ ⟨⟩
    refine ⟨hsize, ?_⟩
    rintro _ ⟨⟩
    exact ⟨trivial, fun _ _ => trivial⟩

end Slurm.Bitstring
