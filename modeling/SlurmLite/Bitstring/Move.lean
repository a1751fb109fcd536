import SlurmLite.Bitstring.Canonical

/-!
# Runs and rotations of bits

* **Runs**: `bit_nset` and `bit_nclear` write a ragged first byte, a ragged
  last byte and the whole bytes between; `bitNset_one_by_one` says that this is
  what `bit_set` and `bit_clear` do bit by bit.
* **Rotations**: `bit_rotate_copy` moves bit `j` to `(j + n) mod nbits`
  (`bit_bitRotateCopy`), so it keeps the number of bits and can be turned back.
  The remainder is undefined for an empty bitmap: `rotations_iff`.
-/

namespace Slurm.Bitstring

open Base.Words

/-- Two bitmaps of one size with the same words. -/
theorem ext_words {b b' : Bitstr} (hn : b.nbits = b'.nbits) (hw : b.words = b'.words) :
    b = b' := by
  cases b
  cases b'
  cases hn
  cases hw
  rfl

/-- Two bitmaps of one size with the same bits, those past the size too. -/
theorem ext_bit {b b' : Bitstr} (hn : b.nbits = b'.nbits) (hbit : ∀ i, b.bit i = b'.bit i) :
    b = b' := by
  apply ext_words hn
  apply ext_getBit
  · rw [b.length_words, b'.length_words, hn]
  · exact hbit

/-! ## Runs -/

/-- The bits written one by one. -/
def putEach (v : Bool) (b : Bitstr) (is : List Nat) : Bitstr := is.foldl (bitPut v) b

theorem nbits_putEach (v : Bool) (b : Bitstr) (is : List Nat) :
    (putEach v b is).nbits = b.nbits := by
  induction is generalizing b with
  | nil => rfl
  | cons i is ih => exact ih (bitPut v b i)

theorem bit_putEach (v : Bool) (b : Bitstr) (is : List Nat) (j : Nat) :
    (putEach v b is).bit j = if j ∈ is ∧ j < 32 * b.words.length then v else b.bit j := by
  have hwords : (putEach v b is).words = putBits v b.words is := by
    induction is generalizing b with
    | nil => rfl
    | cons i is ih => exact ih (bitPut v b i)
  show getBit (putEach v b is).words j = _
  rw [hwords, getBit_putBits]
  rfl

theorem mem_run {start stop i : Nat} (h : start ≤ stop) :
    i ∈ List.range' start (stop + 1 - start) ↔ start ≤ i ∧ i ≤ stop := by
  rw [List.mem_range'_1]
  omega

theorem bitNput_one_by_one (v : Bool) (b : Bitstr) {start stop : Nat} (h : start ≤ stop) :
    bitNput v b start (stop + 1 - start) =
      putEach v b (List.range' start (stop + 1 - start)) := by
  obtain ⟨hn, hbit⟩ := bitNput_spec v b start (stop + 1 - start)
  apply ext_bit
  · rw [hn, nbits_putEach]
  · intro i
    have hrun : (start ≤ i ∧ i < start + (stop + 1 - start) ∧ i < 32 * b.words.length) ↔
        i ∈ List.range' start (stop + 1 - start) ∧ i < 32 * b.words.length := by
      rw [mem_run h]
      omega
    rw [hbit, bit_putEach]
    simp only [hrun]

/-- A run is set or cleared as if bit by bit, and the other bits stay. -/
theorem bitNset_one_by_one (b : Bitstr) {start stop : Nat} (h : start ≤ stop)
    (hstop : stop < b.nbits) :
    (bitNset b start stop = (List.range' start (stop + 1 - start)).foldl bitSet b ∧
      bitNclear b start stop = (List.range' start (stop + 1 - start)).foldl bitClear b) ∧
    ∀ i, i < start ∨ stop < i →
      (bitNset b start stop).bit i = b.bit i ∧ (bitNclear b start stop).bit i = b.bit i := by
  have hlen : start + (stop + 1 - start) ≤ b.nbits := by omega
  refine ⟨⟨bitNput_one_by_one true b h, bitNput_one_by_one false b h⟩, ?_⟩
  intro i hi
  have hout : ¬ (start ≤ i ∧ i < start + (stop + 1 - start)) := by omega
  constructor
  · rw [bitNset, bit_bitNput hlen, if_neg hout]
  · rw [bitNclear, bit_bitNput hlen, if_neg hout]

/-- Bits 5 to 18 of twenty: a ragged byte at each end and one whole byte. -/
theorem bitNset_one_by_one_twenty :
    bitNset (bitAlloc 20) 5 18 = (List.range' 5 14).foldl bitSet (bitAlloc 20) ∧
      ∀ i, i < 5 ∨ 18 < i → (bitNset (bitAlloc 20) 5 18).bit i = (bitAlloc 20).bit i := by
  obtain ⟨⟨hset, -⟩, hrest⟩ :=
    @bitNset_one_by_one (bitAlloc 20) 5 18 (by decide) (by show 18 < 20; decide)
  exact ⟨hset, fun i hi => (hrest i hi).1⟩

/-! ## Rotations -/

/-- `bit_rotate_copy`: `n % nbits` is undefined for no bits. -/
def rotateCopy (b : Bitstr) (n : Int) (nbits : Nat) : Option Bitstr :=
  if nbits = 0 then none else some (bitRotateCopy b n nbits)

/-- Where a rotation by `n` puts bit `j`. -/
def turned (n : Int) (nbits j : Nat) : Nat := ((j + n) % nbits).toNat

theorem turned_lt {nbits : Nat} (h : 0 < nbits) (n : Int) (j : Nat) : turned n nbits j < nbits := by
  have hpos : (0 : Int) < nbits := by omega
  have hnonneg := Int.emod_nonneg (j + n) (show (nbits : Int) ≠ 0 by omega)
  have hlt := Int.emod_lt_of_pos (j + n) hpos
  unfold turned
  omega

theorem turned_cast {nbits : Nat} (h : 0 < nbits) (n : Int) (j : Nat) :
    (turned n nbits j : Int) = (j + n) % nbits := by
  have hnonneg := Int.emod_nonneg (j + n) (show (nbits : Int) ≠ 0 by omega)
  unfold turned
  omega

/-- A turn by `n` is undone by a turn by `-n`. -/
theorem turned_neg {nbits j : Nat} (hj : j < nbits) (n : Int) :
    turned (-n) nbits (turned n nbits j) = j := by
  have hpos : 0 < nbits := by omega
  have hcast : (turned (-n) nbits (turned n nbits j) : Int) = j := by
    rw [turned_cast hpos, turned_cast hpos, Int.emod_add_emod, Int.add_neg_cancel_right]
    exact Int.emod_eq_of_lt (by omega) (by omega)
  exact Int.ofNat_inj.mp hcast

theorem turned_inj {nbits j k : Nat} (hj : j < nbits) (hk : k < nbits) {n : Int}
    (h : turned n nbits j = turned n nbits k) : j = k := by
  rw [← turned_neg hj n, h, turned_neg hk]

/-- The distance made positive is the remainder. -/
theorem rotation_cast {nbits : Nat} (h : 0 < nbits) (n : Int) :
    (rotation n nbits : Int) = n % nbits := by
  have hnonneg := Int.emod_nonneg n (show (nbits : Int) ≠ 0 by omega)
  have hlt := Int.emod_lt_of_pos n (show (0 : Int) < nbits by omega)
  simp only [rotation]
  rw [Int.tmod_eq_emod]
  split
  · rw [if_neg (by omega)]
    omega
  · rw [Int.natAbs_natCast, if_pos (by omega)]
    omega

/-- The two loops put a bit where the turn does: up, or past the end and back
to the start. -/
theorem turned_eq {nbits j : Nat} (hj : j < nbits) (n : Int) :
    turned n nbits j =
      if j < nbits - rotation n nbits then j + rotation n nbits
      else j - (nbits - rotation n nbits) := by
  have hpos : 0 < nbits := by omega
  have hrot := rotation_lt n hpos
  have hmod : (j + n) % nbits = ((j + rotation n nbits : Nat) : Int) % nbits := by
    rw [Int.natCast_add, rotation_cast hpos, Int.add_emod_emod]
  unfold turned
  rw [hmod, ← Int.natCast_emod, Int.toNat_natCast]
  split
  · exact Nat.mod_eq_of_lt (by omega)
  · rw [Nat.mod_eq_sub_mod (by omega), Nat.mod_eq_of_lt (by omega)]
    omega

/-- One copying loop: a bit is set where it was, or where a set bit goes. -/
theorem bit_copyBits {b new : Bitstr} {source target : Nat → Nat} {is : List Nat}
    (hj : ∀ i ∈ is, target i < new.nbits) (j : Nat) :
    (is.foldl (fun new i => copyBit b new (source i) (target i)) new).bit j = true ↔
      new.bit j = true ∨ ∃ i ∈ is, b.bit (source i) = true ∧ target i = j := by
  induction is generalizing new with
  | nil => simp
  | cons i is ih =>
    have hn : (copyBit b new (source i) (target i)).nbits = new.nbits := by
      unfold copyBit
      split <;> rfl
    have hin := lt_words new (hj i List.mem_cons_self)
    have hone : (copyBit b new (source i) (target i)).bit j = true ↔
        new.bit j = true ∨ (b.bit (source i) = true ∧ target i = j) := by
      unfold copyBit bitTest
      by_cases hset : b.bit (source i) = true
      · rw [if_pos hset, bitSet, bit_bitPut]
        by_cases hji : j = target i
        · simp [hji, hin, hset]
        · simp [hji, hset, Ne.symm hji]
      · rw [if_neg hset]
        simp [hset]
    rw [List.foldl_cons, ih fun k hk => hn ▸ hj k (List.mem_cons_of_mem _ hk), hone]
    simp only [List.mem_cons, exists_eq_or_imp, or_assoc]

/-- A rotated copy has its bits where the turn puts them. -/
theorem bit_bitRotateCopy (b : Bitstr) (n : Int) {nbits : Nat} (hpos : 0 < nbits)
    (hle : b.nbits ≤ nbits) (i : Nat) :
    (bitRotateCopy b n nbits).bit i = true ↔
      ∃ j < b.nbits, b.bit j = true ∧ turned n nbits j = i := by
  have hrot := rotation_lt n hpos
  have hn : (bitNclear (bitAlloc nbits) 0 (nbits - 1)).nbits = nbits := (bitNput_spec ..).1
  have hclear : (bitNclear (bitAlloc nbits) 0 (nbits - 1)).bit i = false := by
    rw [bitNclear, (bitNput_spec ..).2, bit_bitAlloc, ite_self]
  have hcan : Canonical (bitNclear (bitAlloc nbits) 0 (nbits - 1)) :=
    (canonical_bitAlloc nbits).bitNput false (by show 0 + (nbits - 1 + 1 - 0) ≤ nbits; omega)
  have hfits : ∀ k ∈ List.range (b.nbits - (rotation n nbits - (nbits - b.nbits))),
      k + rotation n nbits < (bitNclear (bitAlloc nbits) 0 (nbits - 1)).nbits := by
    intro k hk
    rw [List.mem_range] at hk
    omega
  obtain ⟨-, hup⟩ := @canonical_copyBits b _ (fun i => i) (fun i => i + rotation n nbits) _
    hcan hfits
  simp only [bitRotateCopy]
  -- the bits that wrap around, then those that shift up
  rw [@bit_copyBits b _ (fun i => b.nbits - (rotation n nbits - (nbits - b.nbits)) + i)
      (fun i => i) _ (fun k hk => by rw [List.mem_range] at hk; rw [hup]; omega),
    @bit_copyBits b _ (fun i => i) (fun i => i + rotation n nbits) _ hfits, hclear]
  simp only [Bool.false_eq_true, false_or, List.mem_range]
  constructor
  · rintro (⟨j, hj, hset, rfl⟩ | ⟨k, hk, hset, rfl⟩)
    · refine ⟨j, by omega, hset, ?_⟩
      rw [turned_eq (by omega), if_pos (by omega)]
    · refine ⟨b.nbits - (rotation n nbits - (nbits - b.nbits)) + k, by omega, hset, ?_⟩
      rw [turned_eq (by omega), if_neg (by omega)]
      omega
  · rintro ⟨j, hj, hset, rfl⟩
    rw [turned_eq (by omega)]
    by_cases hlow : j < nbits - rotation n nbits
    · rw [if_pos hlow]
      exact Or.inl ⟨j, by omega, hset, rfl⟩
    · rw [if_neg hlow]
      refine Or.inr ⟨j - (nbits - rotation n nbits), by omega, ?_, rfl⟩
      have hback : b.nbits - (rotation n nbits - (nbits - b.nbits)) +
          (j - (nbits - rotation n nbits)) = j := by omega
      rw [hback]
      exact hset

/-- The bits that are set. -/
def setBits (b : Bitstr) : Finset Nat := (Finset.range b.nbits).filter fun i => bitTest b i = true

theorem mem_setBits {b : Bitstr} {i : Nat} : i ∈ setBits b ↔ i < b.nbits ∧ b.bit i = true := by
  rw [setBits, Finset.mem_filter, Finset.mem_range]
  rfl

theorem setBits_bitRotateCopy (b : Bitstr) (n : Int) {nbits : Nat} (hpos : 0 < nbits)
    (hle : b.nbits ≤ nbits) :
    setBits (bitRotateCopy b n nbits) = (setBits b).image (turned n nbits) := by
  have hn := (canonical_bitRotateCopy b n hpos hle).2
  ext i
  rw [mem_setBits, hn, bit_bitRotateCopy b n hpos hle, Finset.mem_image]
  constructor
  · rintro ⟨-, j, hj, hset, rfl⟩
    exact ⟨j, mem_setBits.mpr ⟨hj, hset⟩, rfl⟩
  · rintro ⟨j, hmem, rfl⟩
    obtain ⟨hj, hset⟩ := mem_setBits.mp hmem
    exact ⟨turned_lt hpos n j, j, hj, hset, rfl⟩

theorem card_bitRotateCopy (b : Bitstr) (n : Int) {nbits : Nat} (hpos : 0 < nbits)
    (hle : b.nbits ≤ nbits) :
    (setBits (bitRotateCopy b n nbits)).card = (setBits b).card := by
  rw [setBits_bitRotateCopy b n hpos hle]
  apply Finset.card_image_of_injOn
  intro j hj k hk h
  have hj' := (mem_setBits.mp hj).1
  have hk' := (mem_setBits.mp hk).1
  exact turned_inj (by omega) (by omega) h

theorem bitRotate_eq (b : Bitstr) (n : Int) (hpos : b.nbits ≠ 0) :
    ∃ b', bitRotate b n = some b' ∧ b'.nbits = b.nbits ∧
      ∀ i < b.nbits, b'.bit i = true ↔ ∃ j < b.nbits, b.bit j = true ∧ turned n b.nbits j = i := by
  have hpos' := Nat.pos_of_ne_zero hpos
  by_cases hn : n = 0
  · subst hn
    refine ⟨b, by rw [bitRotate, if_pos rfl], rfl, ?_⟩
    have hstay : ∀ j < b.nbits, turned 0 b.nbits j = j := by
      intro j hj
      rw [turned, Int.add_zero, Int.emod_eq_of_lt (by omega) (by omega), Int.toNat_natCast]
    intro i hi
    constructor
    · exact fun hset => ⟨i, hi, hset, hstay i hi⟩
    · rintro ⟨j, hj, hset, rfl⟩
      rwa [hstay j hj]
  · have hsize := (canonical_bitRotateCopy b n hpos' (Nat.le_refl _)).2
    refine ⟨bitRotateCopy b n b.nbits, ?_, hsize,
      fun i _ => bit_bitRotateCopy b n hpos' (Nat.le_refl _) i⟩
    rw [bitRotate, if_neg hn, if_neg hpos, bitCopybits, if_pos hsize]

/-- What a copy that is rotated has to be. -/
def Turns (b new : Bitstr) (n : Int) (nbits : Nat) : Prop :=
  new.nbits = nbits ∧
    (∀ i < nbits, bitTest new i = true ↔
      ∃ j < b.nbits, bitTest b j = true ∧ (i : Int) = (j + n) % nbits) ∧
    (setBits new).card = (setBits b).card

/-- The rotations are right: the copy has its bits where they belong, and a
bitmap that is rotated can be rotated back. -/
def RotationsRight (b : Bitstr) (n : Int) (nbits : Nat) : Prop :=
  (∃ new, rotateCopy b n nbits = some new ∧ Turns b new n nbits) ∧
    ∃ b₁ b₂, bitRotate b n = some b₁ ∧ bitRotate b₁ (-n) = some b₂ ∧ SameBits b₂ b

theorem turns_bitRotateCopy (b : Bitstr) (n : Int) {nbits : Nat} (hpos : 0 < nbits)
    (hle : b.nbits ≤ nbits) : Turns b (bitRotateCopy b n nbits) n nbits := by
  refine ⟨(canonical_bitRotateCopy b n hpos hle).2, ?_, card_bitRotateCopy b n hpos hle⟩
  intro i _
  show (bitRotateCopy b n nbits).bit i = true ↔ _
  rw [bit_bitRotateCopy b n hpos hle]
  have hplace : ∀ j, turned n nbits j = i ↔ (i : Int) = (j + n) % nbits := by
    intro j
    rw [← turned_cast hpos, Int.ofNat_inj, eq_comm]
  simp only [hplace]
  rfl

theorem bitRotate_back (b : Bitstr) (n : Int) (hpos : b.nbits ≠ 0) :
    ∃ b₁ b₂, bitRotate b n = some b₁ ∧ bitRotate b₁ (-n) = some b₂ ∧ SameBits b₂ b := by
  obtain ⟨b₁, hfirst, hn₁, hbit₁⟩ := bitRotate_eq b n hpos
  obtain ⟨b₂, hsecond, hn₂, hbit₂⟩ := bitRotate_eq b₁ (-n) (by rw [hn₁]; exact hpos)
  refine ⟨b₁, b₂, hfirst, hsecond, hn₂.trans hn₁, ?_⟩
  rw [hn₂, hn₁]
  intro i hi
  show b₂.bit i = b.bit i
  apply Bool.eq_iff_iff.mpr
  rw [hbit₂ i (by omega), hn₁]
  constructor
  · rintro ⟨k, hk, hset, rfl⟩
    obtain ⟨j, hj, hset', rfl⟩ := (hbit₁ k hk).mp hset
    rwa [turned_neg hj]
  · intro hset
    have hlt := turned_lt (Nat.pos_of_ne_zero hpos) n i
    exact ⟨turned n b.nbits i, hlt, (hbit₁ _ hlt).mpr ⟨i, hi, hset, rfl⟩, turned_neg hi n⟩

/-- Rotations are right except of nothing: there the remainder by the size is
taken, for `bit_rotate` where the distance is not zero. -/
theorem rotations_iff (b : Bitstr) (n : Int) (nbits : Nat) (hle : b.nbits ≤ nbits) :
    RotationsRight b n nbits ↔ nbits ≠ 0 ∧ (b.nbits ≠ 0 ∨ n = 0) := by
  constructor
  · rintro ⟨⟨new, hcopy, -⟩, b₁, -, hrot, -⟩
    constructor
    · intro hzero
      rw [rotateCopy, if_pos hzero] at hcopy
      cases hcopy
    · by_contra hnot
      rw [not_or, not_not] at hnot
      rw [bitRotate, if_neg hnot.2, if_pos hnot.1] at hrot
      cases hrot
  · rintro ⟨hsize, hbits⟩
    refine ⟨⟨bitRotateCopy b n nbits, if_neg hsize,
      turns_bitRotateCopy b n (Nat.pos_of_ne_zero hsize) hle⟩, ?_⟩
    by_cases hb : b.nbits = 0
    · obtain rfl := hbits.resolve_left fun h => h hb
      exact ⟨b, b, rfl, rfl, rfl, fun _ _ => rfl⟩
    · exact bitRotate_back b n hb

/-- Five bits in a bitmap of eight, seven down. -/
theorem rotations_iff_five : RotationsRight (bitNset (bitAlloc 5) 1 3) (-7) 8 := by
  apply (rotations_iff (bitNset (bitAlloc 5) 1 3) (-7) 8 (by decide)).mpr
  exact ⟨by decide, Or.inl (by decide)⟩

/-- A bitmap of no bits cannot be rotated. -/
theorem rotations_empty : ¬ RotationsRight (bitAlloc 0) 1 0 := by
  rintro ⟨⟨new, hcopy, -⟩, -⟩
  cases hcopy

end Slurm.Bitstring
