import SlurmLite.Base.Search
import SlurmLite.Bitstring.Canonical

/-!
# Searching bitmaps

The searches of `bitstring.c` return an index or -1.

* **Runs**: `bit_nffc`, `bit_noc` and `bit_nffs` count bits in a row. Each asserts
  that the number of bits fits the bitmap, `bit_nffc` that it is smaller than it; `none`
  is a call whose assertion fails. `bit_nffs` stops where a run could last start, not
  where it could last end (`runs_found_iff`); `bit_noc` looks from a seed on and then
  from the start (`bitNoc_finds`).
* **One bit**: `bit_ffs` and `bit_ffc` go word by word and skip words of one
  value, which for `bit_ffc` is not the value of a full word (`bitFfc_iff`).
  Their counter wraps where the last word of a very large bitmap is skipped
  (`bitFfs_bitFls_iff`).
-/

namespace Slurm.Bitstring

open Base.Words Base.Search

/-- Bit `i` is `v`. -/
def isBit (v : Bool) (b : Bitstr) (i : Nat) : Bool := bitTest b i == v

@[simp] theorem isBit_eq {v : Bool} {b : Bitstr} {i : Nat} : isBit v b i = true ↔ b.bit i = v := by
  rw [isBit, beq_iff_eq]
  rfl

/-! ## Runs of bits -/

/-- `bit_nffc`. -/
def bitNffc (b : Bitstr) (n : Nat) : Option Int :=
  if 0 < n ∧ n < b.nbits then
    some (firstRun (isBit false b) (fun _ => false) n b.nbits 0 0)
  else none

/-- `bit_nffs`: the last bit tested is number `nbits - n`. -/
def bitNffs (b : Bitstr) (n : Nat) : Option Int :=
  if 0 < n ∧ n ≤ b.nbits then
    some (firstRun (isBit true b) (fun _ => false) n (b.nbits + 1 - n) 0 0)
  else none

/-- `bit_noc`. Where `seed + n` is no `int`, `overflow` is how its test comes
out. -/
def bitNoc (overflow : Bool) (b : Bitstr) (n seed : Nat) : Option Int :=
  if 0 < n ∧ n ≤ b.nbits then
    let tooSmall := if seed + n ≤ maxBits then decide (b.nbits ≤ seed + n) else overflow
    let seed := if tooSmall then b.nbits else seed
    let value := firstRun (isBit false b) (fun _ => false) n (b.nbits - seed) seed 0
    if value ≠ -1 then some value
    else some (firstRun (isBit false b) (fun bit => decide (seed ≤ bit)) n b.nbits 0 0)
  else none

/-- `n` bits from `s` on are `v`. -/
def BitRun (v : Bool) (b : Bitstr) (n s : Nat) : Prop := RunAt (isBit v b) b.nbits n s

/-- Both searches for a first run return, and are right. -/
def RunsFound (b : Bitstr) (n : Nat) : Prop :=
  (∃ value, bitNffs b n = some value ∧ IsLowest (BitRun true b n) value) ∧
    ∃ value, bitNffc b n = some value ∧ IsLowest (BitRun false b n) value

/-- A run that ends early enough for the loop of `bit_nffs`. -/
theorem early_run_iff {b : Bitstr} {n s : Nat} (hn : 1 ≤ n) :
    RunAt (isBit true b) (b.nbits + 1 - n) n s ↔
      BitRun true b n s ∧ s + 2 * n ≤ b.nbits + 1 := by
  constructor
  · rintro ⟨hlen, hrow⟩
    exact ⟨⟨by omega, hrow⟩, by omega⟩
  · rintro ⟨⟨-, hrow⟩, hlen⟩
    exact ⟨by omega, hrow⟩

/-- The searches for a run are right where `n` is smaller than the bitmap, except where there
are runs of `n` set bits and all of them end too late. -/
theorem runs_found_iff (b : Bitstr) (n : Nat) (hn : 1 ≤ n) :
    RunsFound b n ↔ n < b.nbits ∧
      ((∃ s, BitRun true b n s) → ∃ s, BitRun true b n s ∧ s + 2 * n ≤ b.nbits + 1) := by
  by_cases hsmall : n < b.nbits
  · have hclear : ∃ value, bitNffc b n = some value ∧ IsLowest (BitRun false b n) value :=
      ⟨_, if_pos ⟨hn, hsmall⟩, firstRun_isLowest _ hn _⟩
    obtain ⟨value, hvalue, hearly⟩ : ∃ value, bitNffs b n = some value ∧
        IsLowest (fun s => BitRun true b n s ∧ s + 2 * n ≤ b.nbits + 1) value :=
      ⟨_, if_pos ⟨hn, hsmall.le⟩, (firstRun_isLowest _ hn _).congr fun s => early_run_iff hn⟩
    rw [and_iff_right hsmall, RunsFound, and_iff_left hclear, hvalue]
    simp only [Option.some.injEq, exists_eq_left']
    constructor
    · intro hset ⟨s, hrun⟩
      obtain ⟨i, hr, hi, -⟩ | ⟨hr, hnone⟩ := hset
      · obtain ⟨j, hr', hj, -⟩ | ⟨hr', -⟩ := hearly
        · exact ⟨j, hj⟩
        · omega
      · exact absurd hrun (hnone s)
    · intro h
      obtain ⟨i, hr, ⟨hi, hend⟩, hmin⟩ | ⟨hr, hnone⟩ := hearly
      · exact Or.inl ⟨i, hr, hi, fun t ht hrun => hmin t ht ⟨hrun, by omega⟩⟩
      · refine Or.inr ⟨hr, fun s hrun => ?_⟩
        obtain ⟨t, ht⟩ := h ⟨s, hrun⟩
        exact hnone t ht
  · -- the assertion of `bit_nffc` fails
    refine iff_of_false ?_ fun h => hsmall h.1
    rintro ⟨-, value, hvalue, -⟩
    rw [bitNffc, if_neg fun h => hsmall h.2] at hvalue
    cases hvalue

/-- Two set bits at the start of four. -/
theorem runs_found_start : RunsFound ⟨4, [3#32], rfl⟩ 2 := by
  apply (runs_found_iff ⟨4, [3#32], rfl⟩ 2 (by decide)).mpr
  refine ⟨by decide, fun _ => ⟨0, ⟨by decide, ?_⟩, by decide⟩⟩
  intro i _ hi
  interval_cases i <;> rfl

/-- Two set bits at the end of four are not found. -/
theorem runs_found_end : ¬ RunsFound ⟨4, [12#32], rfl⟩ 2 := by
  rintro ⟨⟨value, hvalue, hset⟩, -⟩
  have hmissed : bitNffs ⟨4, [12#32], rfl⟩ 2 = some (-1) := by decide
  obtain rfl := Option.some.inj (hmissed.symm.trans hvalue)
  obtain ⟨i, hr, -⟩ | ⟨-, hnone⟩ := hset
  · omega
  · refine hnone 2 ⟨by decide, ?_⟩
    intro i hlo hhi
    interval_cases i <;> rfl

/-- A search of the two passes finds a run from any seed. -/
theorem twoPasses_find {b : Bitstr} {n : Nat} (hn : 1 ≤ n) (seed : Nat) {value r : Int}
    (hfirst : value = firstRun (isBit false b) (fun _ => false) n (b.nbits - seed) seed 0)
    (hr : r = if value ≠ -1 then value
      else firstRun (isBit false b) (fun bit => decide (seed ≤ bit)) n b.nbits 0 0) :
    ((∃ s, BitRun false b n s) → ∃ s : Nat, r = s ∧ BitRun false b n s) ∧
      ((¬ ∃ s, BitRun false b n s) → r = -1) := by
  have hpass₁ := firstRun_spec (isBit false b) (fun _ => false) hn seed (b.nbits - seed)
  have hpass₂ := firstRun_spec (isBit false b) (fun bit => decide (seed ≤ bit)) hn 0 b.nbits
  rw [← hfirst] at hpass₁
  rw [Nat.zero_add] at hpass₂
  obtain ⟨s, hs, hseed, hrun, -⟩ | ⟨hnone, hlate⟩ := hpass₁
  · have hfound : BitRun false b n s := ⟨by have := hrun.1; omega, hrun.2⟩
    rw [if_pos (by omega)] at hr
    exact ⟨fun _ => ⟨s, hr.trans hs, hfound⟩, fun h => absurd ⟨s, hfound⟩ h⟩
  · rw [if_neg (not_not.mpr hnone)] at hr
    rw [← hr] at hpass₂
    -- no run starts at the seed or later
    have hlate' : ∀ t, seed ≤ t → ¬ BitRun false b n t := by
      intro t ht hrun
      obtain hlate | ⟨g, hgive, -⟩ := hlate
      · exact hlate t ht ⟨by have := hrun.1; omega, hrun.2⟩
      · cases hgive
    obtain ⟨s, hs, -, hrun, -⟩ | ⟨hr', hrest⟩ := hpass₂
    · exact ⟨fun _ => ⟨s, hs, hrun⟩, fun h => absurd ⟨s, hrun⟩ h⟩
    · have hno : ¬ ∃ s, BitRun false b n s := by
        rintro ⟨t, hrun⟩
        obtain hall | ⟨g, hgive, -, -, hearly⟩ := hrest
        · exact hall t (Nat.zero_le _) hrun
        · have hg : seed ≤ g := of_decide_eq_true hgive
          by_cases ht : t ≤ g
          · exact hearly t (Nat.zero_le _) ht hrun
          · exact hlate' t (by omega) hrun
      exact ⟨fun h => absurd h hno, fun _ => hr'⟩

/-- `bit_noc` finds a run of clear bits where there is one, for every number of bits up to the
size of the bitmap. -/
theorem bitNoc_finds (overflow : Bool) (b : Bitstr) (n seed : Nat) (hn : 1 ≤ n)
    (hsize : n ≤ b.nbits) : ∃ r, bitNoc overflow b n seed = some r ∧
      ((∃ s, BitRun false b n s) → ∃ s : Nat, r = s ∧ BitRun false b n s) ∧
      ((¬ ∃ s, BitRun false b n s) → r = -1) := by
  refine ⟨_, ?_, twoPasses_find hn
    (if (if seed + n ≤ maxBits then decide (b.nbits ≤ seed + n) else overflow) then b.nbits
      else seed) rfl rfl⟩
  rw [bitNoc, if_pos ⟨hn, hsize⟩]
  exact (apply_ite some _ _ _).symm

/-- Three clear bits around the seed. -/
theorem bitNoc_finds_around : ∃ r, bitNoc true ⟨8, [0x23#32], rfl⟩ 3 4 = some r ∧
    ∃ s : Nat, r = s ∧ BitRun false ⟨8, [0x23#32], rfl⟩ 3 s := by
  obtain ⟨r, hr, hfound, -⟩ :=
    bitNoc_finds true ⟨8, [0x23#32], rfl⟩ 3 4 (by decide) (by decide)
  refine ⟨r, hr, hfound ⟨2, by decide, ?_⟩⟩
  intro i hlo hhi
  interval_cases i <;> rfl

/-- More bits than there are: the assertion fails, and nothing is returned. -/
theorem bitNoc_aborts : ¬ ∃ r, bitNoc true (bitAlloc 8) 9 0 = some r ∧
    ((∃ s, BitRun false (bitAlloc 8) 9 s) → ∃ s : Nat, r = s ∧ BitRun false (bitAlloc 8) 9 s) ∧
    ((¬ ∃ s, BitRun false (bitAlloc 8) 9 s) → r = -1) := by
  rintro ⟨r, hr, -⟩
  cases hr

/-! ## The first bit -/

/-- The loop of `bit_ffs` and `bit_ffc`, with `bit` a multiple of 32 or the
size: words that are `skip` are passed over. Past the largest `int` the counter
wraps and the next word is read before the bitmap. -/
def firstLoop (v : Bool) (skip : BitVec 32) (b : Bitstr) : Nat → Nat → Option Int
  | 0, _ => some (-1)
  | fuel + 1, bit =>
    if bit < b.nbits then
      if b.words.getD (bit / 32) 0 = skip then
        if bit + 32 ≤ maxBits then firstLoop v skip b fuel (bit + 32) else none
      else
        let stop := min b.nbits (32 * (bit / 32 + 1))
        let value := lowest (isBit v b) (stop - bit) bit
        if value = -1 then firstLoop v skip b fuel stop else some value
    else some (-1)

/-- The search for the first bit that is `v`. -/
def firstBit (v : Bool) (skip : BitVec 32) (b : Bitstr) : Option Int :=
  firstLoop v skip b (b.words.length + 1) 0

/-- `bit_ffs`. -/
def bitFfs (b : Bitstr) : Option Int := firstBit true 0 b

/-- `bit_ffc`: the words passed over are those equal to `BITSTR_MAXPOS`. -/
def bitFfc (b : Bitstr) : Option Int := firstBit false 31 b

/-- A bit of the bitmap that is `v`. -/
def BitIs (v : Bool) (b : Bitstr) (i : Nat) : Prop := i < b.nbits ∧ b.bit i = v

/-- The word of bit `i`. -/
def wordOf (b : Bitstr) (i : Nat) : BitVec 32 := b.words.getD (i / 32) 0

/-- A search for one bit is right: it returns the first one there is, as a scan
of all bits does. -/
def FirstRight (v : Bool) (b : Bitstr) (r : Option Int) : Prop :=
  ∃ value, r = some value ∧ IsLowest (BitIs v b) value ∧ value = lowest (isBit v b) b.nbits 0

theorem lowest_bitIs (v : Bool) (b : Bitstr) :
    IsLowest (BitIs v b) (lowest (isBit v b) b.nbits 0) := by
  apply (lowest_spec (isBit v b) b.nbits 0).congr
  intro i
  rw [isBit_eq, Nat.zero_add]
  exact ⟨fun h => h.2, fun h => ⟨Nat.zero_le _, h⟩⟩

theorem firstRight_iff {v : Bool} {b : Bitstr} {r : Option Int} :
    FirstRight v b r ↔ ∃ value, r = some value ∧ IsLowest (BitIs v b) value := by
  constructor
  · rintro ⟨value, hr, hlow, -⟩
    exact ⟨value, hr, hlow⟩
  · rintro ⟨value, hr, hlow⟩
    exact ⟨value, hr, hlow, hlow.unique (lowest_bitIs v b)⟩

/-- The loop gets to the word of the first bit, and finds it unless the word is
one to pass over. -/
theorem firstLoop_of_first {v : Bool} {skip : BitVec 32} {b : Bitstr} {i : Nat}
    (hsize : b.nbits ≤ maxBits) (hi : BitIs v b i) (hfirst : ∀ j < i, ¬ BitIs v b j)
    (hword : wordOf b i ≠ skip) (fuel w : Nat) (hle : w ≤ i / 32) (hfuel : i / 32 < w + fuel) :
    firstLoop v skip b fuel (32 * w) = some (i : Int) := by
  have hin := hi.1
  have hbelow : ∀ j < i, isBit v b j = false := by
    intro j hj
    by_contra hset
    rw [Bool.not_eq_false, isBit_eq] at hset
    exact hfirst j hj ⟨by omega, hset⟩
  induction fuel generalizing w with
  | zero => omega
  | succ fuel ih =>
    have hdiv : 32 * w / 32 = w := by omega
    rw [firstLoop, if_pos (by omega), hdiv]
    simp only
    by_cases hw : w = i / 32
    · -- the word of the bit
      have hskip : b.words.getD w 0 ≠ skip := by
        rw [hw]
        exact hword
      rw [if_neg hskip]
      have hvalue : lowest (isBit v b) (min b.nbits (32 * (w + 1)) - 32 * w) (32 * w) = i :=
        lowest_of_first (by omega) (by omega) (isBit_eq.mpr hi.2) fun l _ hl => hbelow l hl
      rw [hvalue, if_neg (by omega)]
    · -- a word before it, passed over or scanned in vain
      have hnext : firstLoop v skip b fuel (32 * (w + 1)) = some (i : Int) :=
        ih (w + 1) (by omega) (by omega)
      split
      · rw [if_pos (show 32 * w + 32 ≤ maxBits by omega)]
        exact hnext
      · have hstop : min b.nbits (32 * (w + 1)) = 32 * (w + 1) := by omega
        have hvalue : lowest (isBit v b) (32 * (w + 1) - 32 * w) (32 * w) = -1 :=
          lowest_of_none fun j _ hj => hbelow j (by omega)
        rw [hstop, hvalue, if_pos rfl]
        exact hnext

/-- What the loop finds is a bit of a word it does not pass over. -/
theorem word_of_firstLoop {v : Bool} {skip : BitVec 32} {b : Bitstr} {fuel bit i : Nat}
    (h : firstLoop v skip b fuel bit = some (i : Int)) : wordOf b i ≠ skip := by
  induction fuel generalizing bit with
  | zero =>
    have hneg := Option.some.inj h
    omega
  | succ fuel ih =>
    rw [firstLoop] at h
    simp only at h
    split at h
    · split at h
      · split at h
        · exact ih h
        · cases h
      · rename_i hskip
        split at h
        · exact ih h
        · have hvalue := Option.some.inj h
          have hspec := lowest_spec (isBit v b)
            (min b.nbits (32 * (bit / 32 + 1)) - bit) bit
          rw [hvalue] at hspec
          obtain ⟨j, hij, ⟨hlo, hhi, -⟩, -⟩ | ⟨hneg, -⟩ := hspec
          · have hdiv : i / 32 = bit / 32 := by omega
            rw [wordOf, hdiv]
            exact hskip
          · omega
    · have hneg := Option.some.inj h
      omega

/-- The last word of the bitmap. -/
def lastWord (b : Bitstr) : BitVec 32 := b.words.getD (b.words.length - 1) 0

theorem lt_firstBits {b : Bitstr} {w : Nat} : w < b.words.length ↔ 32 * w < b.nbits := by
  rw [b.length_words, bitstrWords]
  omega

/-- With no bit to find the loop gets to the last word, and past it where the
counter does not wrap. -/
theorem firstLoop_of_none {v : Bool} {skip : BitVec 32} {b : Bitstr} (hsize : b.nbits ≤ maxBits)
    (hnone : ∀ i, ¬ BitIs v b i) (fuel w : Nat) (hfuel : w + fuel = b.words.length + 1)
    (hpos : 0 < fuel) :
    firstLoop v skip b fuel (32 * w) =
      if w < b.words.length ∧ maxLoop < b.nbits ∧ lastWord b = skip then none else some (-1) := by
  have hbit : ∀ j < b.nbits, isBit v b j = false := by
    intro j hj
    by_contra hset
    rw [Bool.not_eq_false, isBit_eq] at hset
    exact hnone j ⟨hj, hset⟩
  induction fuel generalizing w with
  | zero => cases hpos
  | succ fuel ih =>
    have hdiv : 32 * w / 32 = w := by omega
    rw [firstLoop, hdiv]
    simp only
    by_cases hw : 32 * w < b.nbits
    · have hlen := lt_firstBits.mpr hw
      rw [if_pos hw]
      have hnext := ih (w + 1) (by omega) (by omega)
      by_cases hlast : w + 1 < b.words.length
      · -- a word that is full
        have hmore := lt_firstBits.mp hlast
        have hsame : (w < b.words.length ∧ maxLoop < b.nbits ∧ lastWord b = skip) ↔
            (w + 1 < b.words.length ∧ maxLoop < b.nbits ∧ lastWord b = skip) := by
          simp only [hlen, hlast]
        simp only [hsame]
        split
        · rw [if_pos (show 32 * w + 32 ≤ maxBits by omega)]
          exact hnext
        · have hstop : min b.nbits (32 * (w + 1)) = 32 * (w + 1) := by omega
          have hvalue : lowest (isBit v b) (32 * (w + 1) - 32 * w) (32 * w) = -1 :=
            lowest_of_none fun j _ hj => hbit j (by omega)
          rw [hstop, hvalue, if_pos rfl]
          exact hnext
      · -- the last word
        have hend : ¬ 32 * (w + 1) < b.nbits := fun h => hlast (lt_firstBits.mpr h)
        have hword : b.words.getD w 0 = lastWord b := by
          have hw' : w = b.words.length - 1 := by omega
          rw [lastWord, ← hw']
        rw [if_neg (fun h => hlast h.1)] at hnext
        rw [hword]
        by_cases hskip : lastWord b = skip
        · rw [if_pos hskip]
          by_cases hlarge : maxLoop < b.nbits
          · have hwrap : ¬ 32 * w + 32 ≤ maxBits := by
              show ¬ 32 * w + 32 ≤ 2147483647
              have hlarge' : 2147483616 < b.nbits := hlarge
              omega
            rw [if_neg hwrap, if_pos ⟨hlen, hlarge, hskip⟩]
          · have hroom : 32 * w + 32 ≤ maxBits := by
              show 32 * w + 32 ≤ 2147483647
              have hsmall : ¬ 2147483616 < b.nbits := hlarge
              omega
            rw [if_pos hroom, if_neg (fun h => hlarge h.2.1)]
            exact hnext
        · have hstop : min b.nbits (32 * (w + 1)) = b.nbits := by omega
          have hvalue : lowest (isBit v b) (b.nbits - 32 * w) (32 * w) = -1 :=
            lowest_of_none fun j _ hj => hbit j (by omega)
          rw [if_neg hskip, hstop, hvalue, if_pos rfl, if_neg (fun h => hskip h.2.2)]
          -- the next turn ends the loop
          cases fuel with
          | zero => rfl
          | succ fuel => rw [firstLoop, if_neg (Nat.lt_irrefl _)]
    · have hlen : ¬ w < b.words.length := fun h => hw (lt_firstBits.mp h)
      rw [if_neg hw, if_neg (fun h => hlen h.1)]

/-- A search for one bit is right where the word of the first one is not passed
over and, if there is none, the counter does not wrap. -/
theorem firstBit_iff (v : Bool) (skip : BitVec 32) (b : Bitstr) (hsize : b.nbits ≤ maxBits) :
    FirstRight v b (firstBit v skip b) ↔
      (∀ i, BitIs v b i → (∀ j < i, ¬ BitIs v b j) → wordOf b i ≠ skip) ∧
      ((∀ i, ¬ BitIs v b i) → maxLoop < b.nbits → lastWord b ≠ skip) := by
  rw [firstRight_iff]
  by_cases hnone : ∀ i, ¬ BitIs v b i
  · have hloop := @firstLoop_of_none v skip b hsize hnone (b.words.length + 1) 0 (by omega)
      (by omega)
    rw [firstBit, show (0 : Nat) = 32 * 0 from rfl, hloop]
    have hword : maxLoop < b.nbits → 0 < b.words.length := by
      intro hlarge
      have hlarge' : 2147483616 < b.nbits := hlarge
      exact lt_firstBits.mpr (by omega)
    constructor
    · rintro ⟨value, hvalue, -⟩
      refine ⟨fun i hi => absurd hi (hnone i), fun _ hlarge hskip => ?_⟩
      rw [if_pos ⟨hword hlarge, hlarge, hskip⟩] at hvalue
      cases hvalue
    · rintro ⟨-, hend⟩
      rw [if_neg (fun h => hend hnone h.2.1 h.2.2)]
      exact ⟨-1, rfl, Or.inr ⟨rfl, hnone⟩⟩
  · have hsome : ∃ i, BitIs v b i := by simpa using hnone
    obtain ⟨i, hi, hfirst⟩ := exists_lowest hsome
    constructor
    · rintro ⟨value, hvalue, hlow⟩
      have hvi : value = i := hlow.unique (Or.inl ⟨i, rfl, hi, hfirst⟩)
      rw [hvi] at hvalue
      refine ⟨?_, fun h => absurd h hnone⟩
      intro k hk hk'
      have hki : (k : Int) = i :=
        IsLowest.unique (Or.inl ⟨k, rfl, hk, hk'⟩) (Or.inl ⟨i, rfl, hi, hfirst⟩)
      rw [Int.ofNat_inj.mp hki]
      exact word_of_firstLoop hvalue
    · rintro ⟨hword, -⟩
      have hin := hi.1
      have hlen : i / 32 < b.words.length := lt_firstBits.mpr (by omega)
      exact ⟨i, firstLoop_of_first hsize hi hfirst (hword i hi hfirst) _ 0 (Nat.zero_le _)
        (by omega), Or.inl ⟨i, rfl, hi, hfirst⟩⟩

/-- `bit_ffc` is right unless the first clear bit lies in a word equal to 31,
or there is none and the last word of a very large bitmap is 31. -/
theorem bitFfc_iff (b : Bitstr) (hsize : b.nbits ≤ maxBits) :
    FirstRight false b (bitFfc b) ↔
      (∀ i, BitIs false b i → (∀ j < i, ¬ BitIs false b j) → wordOf b i ≠ 31) ∧
      ((∀ i, ¬ BitIs false b i) → maxLoop < b.nbits → lastWord b ≠ 31) :=
  firstBit_iff false 31 b hsize

/-- Six set bits of eight. -/
theorem bitFfc_iff_six : FirstRight false ⟨8, [0x3F#32], rfl⟩ (bitFfc ⟨8, [0x3F#32], rfl⟩) := by
  apply (bitFfc_iff ⟨8, [0x3F#32], rfl⟩ (by decide)).mpr
  refine ⟨?_, fun _ hlarge => absurd hlarge (by decide)⟩
  intro i hi _
  have hword : wordOf ⟨8, [0x3F#32], rfl⟩ i = 0x3F#32 := by
    have hzero : i / 32 = 0 := by
      have hlt : i < 8 := hi.1
      omega
    rw [wordOf, hzero]
    rfl
  rw [hword]
  decide

/-- Five set bits of eight: no clear bit is found. -/
theorem bitFfc_five : ¬ FirstRight false ⟨8, [0x1F#32], rfl⟩ (bitFfc ⟨8, [0x1F#32], rfl⟩) := by
  rintro ⟨value, hvalue, -, hscan⟩
  have hmissed : bitFfc ⟨8, [0x1F#32], rfl⟩ = some (-1) := by decide
  have hfive : lowest (isBit false ⟨8, [0x1F#32], rfl⟩) 8 0 = 5 := by decide
  have hval := Option.some.inj (hmissed.symm.trans hvalue)
  have hscan' : value = 5 := hscan.trans hfive
  omega

/-! ## The last bit -/

/-- The first loop of `bit_fls`, for `k` bits left: down to the end of a whole
word. It returns the bit found and what is left. -/
def flsPartial (b : Bitstr) : Nat → Int × Nat
  | 0 => (-1, 0)
  | k + 1 =>
    if k / 32 = (k + 1) / 32 then
      if bitTest b k then ((k : Int), k + 1) else flsPartial b k
    else (-1, k + 1)

/-- The second loop: down word by word. -/
def flsWords (b : Bitstr) : Nat → Nat → Int
  | 0, _ => -1
  | _ + 1, 0 => -1
  | fuel + 1, k + 1 =>
    if b.words.getD (k / 32) 0 = 0 then flsWords b fuel (k + 1 - 32)
    else highest (bitTest b) (k + 1)

/-- `bit_fls`. -/
def bitFls (b : Bitstr) : Int :=
  if b.nbits = 0 then -1
  else
    let (value, k) := flsPartial b b.nbits
    if value = -1 then flsWords b (b.words.length + 1) k else value

/-- The first loop finds the last bit, or leaves whole words only. -/
theorem flsPartial_spec (b : Bitstr) (k : Nat) :
    ((flsPartial b k).1 ≠ -1 ∧ (flsPartial b k).1 = highest (bitTest b) k) ∨
      ((flsPartial b k).1 = -1 ∧ 32 ∣ (flsPartial b k).2 ∧ (flsPartial b k).2 ≤ k ∧
        highest (bitTest b) k = highest (bitTest b) (flsPartial b k).2) := by
  induction k with
  | zero => exact Or.inr ⟨rfl, Nat.dvd_zero 32, Nat.le_refl _, rfl⟩
  | succ k ih =>
    rw [flsPartial]
    split
    · by_cases hset : bitTest b k = true
      · rw [if_pos hset, highest, if_pos hset]
        exact Or.inl ⟨by simp only; omega, rfl⟩
      · rw [if_neg hset, highest, if_neg hset]
        obtain hfound | ⟨hnone, hdvd, hle, hsame⟩ := ih
        · exact Or.inl hfound
        · exact Or.inr ⟨hnone, hdvd, by omega, hsame⟩
    · exact Or.inr ⟨rfl, by simp only; omega, Nat.le_refl _, rfl⟩

theorem highest_drop {test : Nat → Bool} {k n : Nat}
    (h : ∀ i, k ≤ i → i < k + n → test i = false) :
    highest test (k + n) = highest test k := by
  induction n with
  | zero => rfl
  | succ n ih =>
    rw [← Nat.add_assoc, highest, if_neg]
    · exact ih fun i hlo hhi => h i hlo (by omega)
    · rw [h (k + n) (by omega) (by omega)]
      exact Bool.false_ne_true

/-- A zero word has no bits. -/
theorem bit_of_wordOf_eq_zero {b : Bitstr} {i : Nat} (h : wordOf b i = 0) : b.bit i = false := by
  show (b.words.getD (i / 32) 0).getLsbD (i % 32) = false
  rw [show b.words.getD (i / 32) 0 = 0 from h]
  exact BitVec.getLsbD_zero

theorem flsWords_spec (b : Bitstr) (fuel w : Nat) (hfuel : w < fuel) :
    flsWords b fuel (32 * w) = highest (bitTest b) (32 * w) := by
  induction fuel generalizing w with
  | zero => omega
  | succ fuel ih =>
    cases w with
    | zero => rfl
    | succ w =>
      have hlast : 32 * (w + 1) = 32 * w + 31 + 1 := by omega
      rw [hlast, flsWords]
      have hdiv : (32 * w + 31) / 32 = w := by omega
      rw [hdiv]
      split
      · rename_i hzero
        have hclear : ∀ i, 32 * w ≤ i → i < 32 * w + 32 → bitTest b i = false := by
          intro i hlo hhi
          apply bit_of_wordOf_eq_zero
          have hi : i / 32 = w := by omega
          rw [wordOf, hi]
          exact hzero
        show flsWords b fuel (32 * w + 32 - 32) = highest (bitTest b) (32 * w + 32)
        rw [highest_drop hclear, Nat.add_sub_cancel]
        exact ih w (by omega)
      · rfl

theorem bitFls_eq (b : Bitstr) : bitFls b = highest (bitTest b) b.nbits := by
  unfold bitFls
  by_cases hzero : b.nbits = 0
  · rw [if_pos hzero, hzero]
    rfl
  · rw [if_neg hzero]
    simp only
    obtain ⟨hfound, hsame⟩ | ⟨hnone, ⟨w, hw⟩, hle, hsame⟩ := flsPartial_spec b b.nbits
    · rw [if_neg hfound, hsame]
    · rw [if_pos hnone, hsame, hw]
      apply flsWords_spec
      rw [b.length_words, bitstrWords]
      omega

theorem isHighest_bitFls (b : Bitstr) : IsHighest (BitIs true b) (bitFls b) := by
  rw [bitFls_eq]
  exact highest_spec (bitTest b) b.nbits

/-- `bit_ffs` and `bit_fls` are right except where `bit_ffs` passes over the
last word of a very large bitmap with no bits set. -/
theorem bitFfs_bitFls_iff (b : Bitstr) (hsize : b.nbits ≤ maxBits) :
    (FirstRight true b (bitFfs b) ∧
      (IsHighest (BitIs true b) (bitFls b) ∧ bitFls b = highest (bitTest b) b.nbits)) ↔
      (b.nbits ≤ maxLoop ∨ (∃ i, BitIs true b i) ∨ lastWord b ≠ 0) := by
  have hlast : (IsHighest (BitIs true b) (bitFls b) ∧ bitFls b = highest (bitTest b) b.nbits) :=
    ⟨isHighest_bitFls b, bitFls_eq b⟩
  have hword : ∀ i, BitIs true b i → wordOf b i ≠ 0 := by
    intro i hi hzero
    have hset := hi.2
    rw [bit_of_wordOf_eq_zero hzero] at hset
    cases hset
  rw [and_iff_left hlast, bitFfs, firstBit_iff true 0 b hsize,
    and_iff_right fun i hi _ => hword i hi]
  constructor
  · intro h
    by_cases hsmall : b.nbits ≤ maxLoop
    · exact Or.inl hsmall
    · by_cases hset : ∃ i, BitIs true b i
      · exact Or.inr (Or.inl hset)
      · exact Or.inr (Or.inr (h (not_exists.mp hset) (Nat.lt_of_not_le hsmall)))
  · rintro (hsmall | ⟨i, hi⟩ | hlastWord) hnone hlarge
    · exact absurd hlarge (Nat.not_lt.mpr hsmall)
    · exact absurd hi (hnone i)
    · exact hlastWord

/-- Forty bits of which one is set. -/
theorem bitFfs_bitFls_iff_forty :
    FirstRight true ⟨40, [0#32, 4#32], rfl⟩ (bitFfs ⟨40, [0#32, 4#32], rfl⟩) :=
  ((bitFfs_bitFls_iff ⟨40, [0#32, 4#32], rfl⟩ (by decide)).mpr (Or.inl (by decide))).1

/-- The largest bitmap, all clear. -/
theorem bitFfs_largest :
    ¬ FirstRight true (bitAlloc 2147483647) (bitFfs (bitAlloc 2147483647)) := by
  rintro ⟨value, hvalue, -⟩
  have hnone : ∀ i, ¬ BitIs true (bitAlloc 2147483647) i := by
    rintro i ⟨-, hset⟩
    rw [bit_bitAlloc] at hset
    cases hset
  have hlen : (bitAlloc 2147483647).words.length = 67108864 := List.length_replicate ..
  have hlast : lastWord (bitAlloc 2147483647) = 0 := by
    rw [lastWord, hlen, List.getD_eq_getElem _ _ (by rw [hlen]; omega)]
    exact List.getElem_replicate ..
  have hloop := @firstLoop_of_none true 0 (bitAlloc 2147483647) (Nat.le_refl _) hnone
    ((bitAlloc 2147483647).words.length + 1) 0 (by omega) (by omega)
  have hlarge : maxLoop < (bitAlloc 2147483647).nbits := by
    show 2147483616 < 2147483647
    omega
  rw [if_pos ⟨by rw [hlen]; omega, hlarge, hlast⟩] at hloop
  exact Option.some_ne_none value (hvalue.symm.trans hloop)

end Slurm.Bitstring
