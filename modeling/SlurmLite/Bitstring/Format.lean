import SlurmLite.Base.CLib
import SlurmLite.Bitstring.Canonical

/-!
# Bitmaps as text

`bit_fmt` prints the runs of set bits of a bitmap, `bitfmt2int` reads such a
text into pairs and `bit_unfmt` sets the bits of the pairs.

* **Runs**: `fmtLoop_spec`: the loop of `bit_fmt` goes through the maximal runs
  of set bits in order.
* **Text**: `bitFmt_of_many`, `bitFmt_of_roomy` and `bitFmt_of_tight` say what is left in the
  buffer, `bitfmt2int_text` reads it back.
* **Round trip**: `bitUnfmt_bitFmt_iff`.
-/

namespace Slurm.Bitstring

open Base.Text Base.CLib Base.Words

/-! ## Printing -/

/-- The inner loop: the last bit of the run at `bit`. -/
def runEnd (b : Bitstr) : Nat → Nat → Nat
  | 0, bit => bit
  | fuel + 1, bit =>
    if bit + 1 < b.nbits ∧ bitTest b (bit + 1) = true then runEnd b fuel (bit + 1) else bit

/-- The loop of `bit_fmt`: the runs it prints. Words of zeros are skipped; the
counter is an `int` and must not pass its range. -/
def fmtLoop (b : Bitstr) : Nat → Nat → Option (List (Nat × Nat))
  | 0, bit => if bit < b.nbits then none else some []
  | fuel + 1, bit =>
    if bit < b.nbits then
      if b.words.getD (bit / 32) 0 = 0 then
        if bit + 32 ≤ maxBits then fmtLoop b fuel (bit + 32) else none
      else if bitTest b bit then
        (fmtLoop b fuel (runEnd b b.nbits bit + 1)).map ((bit, runEnd b b.nbits bit) :: ·)
      else fmtLoop b fuel (bit + 1)
    else some []

/-- The runs `bit_fmt` prints. -/
def fmtRuns (b : Bitstr) : Option (List (Nat × Nat)) := fmtLoop b b.nbits 0

/-- A run without the comma: `BITSTR_SINGLE_FMT` or `BITSTR_RANGE_FMT`. -/
def rangeText (r : Nat × Nat) : List Char :=
  if r.1 = r.2 then decimal r.1 else decimal r.1 ++ '-' :: decimal r.2

/-- A run as it is printed. -/
def runText (r : Nat × Nat) : List Char := rangeText r ++ [',']

/-- One `snprintf` at the end of the text in a buffer of `len` bytes. -/
def emit (len : Nat) (str : List Char) (r : Nat × Nat) : List Char :=
  str ++ (runText r).take (len - str.length - 1)

/-- `bit_fmt`: the text in the buffer; `none` where it reads past the bitmap, writes
outside the buffer or asserts that there is more room for the braces. -/
def bitFmt (len : Nat) (b : Bitstr) : Option (List Char) :=
  (fmtRuns b).bind fun runs =>
    let str := runs.foldl (emit len) []
    if runs.length = 0 then some str
    else if str = [] then none
    else
      -- zap the trailing comma
      let str := str.dropLast
      if 1 < runs.length then
        if str.length + 3 < len then some ('[' :: (str ++ [']'])) else none
      else some str

/-! ## Reading -/

/-- The variables of `bitfmt2int`, with the pairs stored so far. -/
structure IntScan where
  sum : Int
  startVal : Int
  pairs : List (Int × Int)
deriving DecidableEq

/-- The branch for a comma and for the end of the text. -/
def IntScan.pair (s : IntScan) : IntScan :=
  ⟨0, -1, s.pairs ++ [(if s.startVal = -1 then s.sum else s.startVal, s.sum)]⟩

/-- One character; any other than a digit, a dash and a comma is passed over. -/
def scanInt (s : IntScan) (c : Char) : IntScan :=
  if c.isDigit then { s with sum := pushDigit s.sum c }
  else if c = '-' then { s with startVal := s.sum, sum := 0 }
  else if c = ',' then s.pair
  else s

/-- `bitfmt2int`: the pairs before the closing `-1`. -/
def bitfmt2int (str : List Char) : List (Int × Int) :=
  if str.head? = some ',' ∨ str = [] then []
  else ((str.foldl scanInt ⟨0, -1, []⟩).pair).pairs

/-- The loop of `bit_unfmt`. -/
def unfmtLoop : Bitstr → List (Int × Int) → Int × Bitstr
  | b, [] => (0, b)
  | b, (p, q) :: rest =>
    if p = -1 then (0, b)
    else if (p < 0 ∨ (b.nbits : Int) ≤ p) ∨ (q < 0 ∨ (b.nbits : Int) ≤ q) then (-1, b)
    else unfmtLoop (bitNset b p.toNat q.toNat) rest

/-- `bit_unfmt`: the return code and the bitmap. -/
def bitUnfmt (b : Bitstr) (str : List Char) : Int × Bitstr :=
  if str = [] then (0, b)
  else unfmtLoop (bitNput false b 0 b.nbits) (bitfmt2int str)

/-! ## The runs -/

/-- The bits of a list of runs. -/
def Covers (runs : List (Nat × Nat)) (i : Nat) : Prop := ∃ r ∈ runs, r.1 ≤ i ∧ i ≤ r.2

theorem runEnd_spec {b : Bitstr} {fuel bit : Nat} (hfuel : b.nbits ≤ bit + 1 + fuel)
    (hbit : bit < b.nbits) (hset : bitTest b bit = true) :
    bit ≤ runEnd b fuel bit ∧ runEnd b fuel bit < b.nbits ∧
      (∀ i, bit ≤ i → i ≤ runEnd b fuel bit → bitTest b i = true) ∧
      (runEnd b fuel bit + 1 < b.nbits → bitTest b (runEnd b fuel bit + 1) = false) := by
  induction fuel generalizing bit with
  | zero =>
    refine ⟨Nat.le_refl _, hbit, fun i h1 h2 => ?_, fun h => ?_⟩
    · obtain rfl : i = bit := Nat.le_antisymm h2 h1
      exact hset
    · simp only [runEnd] at h
      omega
  | succ fuel ih =>
    rw [runEnd]
    split
    · rename_i hnext
      obtain ⟨hle, hlt, hall, hend⟩ := ih (by omega) hnext.1 hnext.2
      refine ⟨by omega, hlt, fun i h1 h2 => ?_, hend⟩
      by_cases hi : i = bit
      · rw [hi]
        exact hset
      · exact hall i (by omega) h2
    · rename_i hnext
      refine ⟨Nat.le_refl _, hbit, fun i h1 h2 => ?_, fun h => ?_⟩
      · obtain rfl : i = bit := Nat.le_antisymm h2 h1
        exact hset
      · by_contra hne
        exact hnext ⟨h, by simpa using hne⟩

/-- Where the loop may stand: at the start of a word, or in a word that is not
zero. -/
def AtWord (b : Bitstr) (bit : Nat) : Prop := bit % 32 = 0 ∨ b.words.getD (bit / 32) 0 ≠ 0

theorem bit_of_word_zero {b : Bitstr} {bit i : Nat} (h : b.words.getD (bit / 32) 0 = 0)
    (hi : i / 32 = bit / 32) : bitTest b i = false := by
  rw [bitTest, Bitstr.bit, getBit, hi, h]
  exact BitVec.getLsbD_zero

theorem word_ne_zero_of_bit {b : Bitstr} {i : Nat} (h : bitTest b i = true) :
    b.words.getD (i / 32) 0 ≠ 0 := by
  intro hzero
  rw [bit_of_word_zero hzero rfl] at h
  cases h

theorem atWord_succ {b : Bitstr} {bit : Nat} (h : b.words.getD (bit / 32) 0 ≠ 0) :
    AtWord b (bit + 1) := by
  by_cases hmod : (bit + 1) % 32 = 0
  · exact Or.inl hmod
  · right
    rwa [show (bit + 1) / 32 = bit / 32 by omega]

/-- The runs from `bit` on: in order with a gap between them, inside the
bitmap, and made of the bits that are set. -/
structure RunsFrom (b : Bitstr) (bit : Nat) (runs : List (Nat × Nat)) : Prop where
  inside : ∀ r ∈ runs, bit ≤ r.1 ∧ r.1 ≤ r.2 ∧ r.2 < b.nbits
  bits : ∀ i, bit ≤ i → i < b.nbits → (bitTest b i = true ↔ Covers runs i)
  gaps : runs.Pairwise fun r r' => r.2 + 1 < r'.1

theorem RunsFrom.skip {b : Bitstr} {bit next : Nat} {runs : List (Nat × Nat)}
    (h : RunsFrom b next runs) (hle : bit ≤ next)
    (hclear : ∀ i, bit ≤ i → i < next → bitTest b i = false) : RunsFrom b bit runs := by
  refine ⟨fun r hr => ?_, fun i h1 h2 => ?_, h.gaps⟩
  · obtain ⟨h1, h2⟩ := h.inside r hr
    exact ⟨by omega, h2⟩
  · by_cases hi : i < next
    · rw [hclear i h1 hi]
      refine iff_of_false (by decide) ?_
      rintro ⟨r, hr, hlo, -⟩
      have := (h.inside r hr).1
      omega
    · exact h.bits i (by omega) h2

theorem fmtLoop_spec {b : Bitstr} {fuel bit : Nat} {runs : List (Nat × Nat)}
    (hword : AtWord b bit) (h : fmtLoop b fuel bit = some runs) : RunsFrom b bit runs := by
  induction fuel generalizing bit runs with
  | zero =>
    rw [fmtLoop] at h
    split at h
    · cases h
    · obtain rfl := Option.some.inj h
      exact ⟨fun r hr => absurd hr List.not_mem_nil, fun i h1 h2 => absurd h2 (by omega),
        List.Pairwise.nil⟩
  | succ fuel ih =>
    rw [fmtLoop] at h
    split at h
    · rename_i hbit
      split at h
      · -- a word of zeros, entered at its start
        rename_i hzero
        split at h
        · have hmod : bit % 32 = 0 := hword.resolve_right (not_not.mpr hzero)
          refine (ih (Or.inl (by omega)) h).skip (by omega) fun i h1 h2 => ?_
          exact bit_of_word_zero hzero (by omega)
        · cases h
      · rename_i hne
        split at h
        · rename_i hset
          obtain ⟨hle, hlt, hall, hend⟩ :=
            runEnd_spec (show b.nbits ≤ bit + 1 + b.nbits by omega) hbit hset
          obtain ⟨rest, hrest, rfl⟩ := Option.map_eq_some_iff.mp h
          generalize runEnd b b.nbits bit = e at hle hlt hall hend hrest ⊢
          have hafter := ih (atWord_succ (word_ne_zero_of_bit (hall e hle (Nat.le_refl _)))) hrest
          refine ⟨fun r hr => ?_, fun i h1 h2 => ?_, ?_⟩
          · obtain rfl | hr := List.mem_cons.mp hr
            · exact ⟨Nat.le_refl _, hle, hlt⟩
            · obtain ⟨h1, h2⟩ := hafter.inside r hr
              exact ⟨by omega, h2⟩
          · by_cases hi : i ≤ e
            · exact iff_of_true (hall i h1 hi) ⟨(bit, e), List.mem_cons_self, h1, hi⟩
            · rw [hafter.bits i (by omega) h2]
              constructor
              · rintro ⟨r, hr, hr'⟩
                exact ⟨r, List.mem_cons_of_mem _ hr, hr'⟩
              · rintro ⟨r, hr, hlo, hhi⟩
                obtain rfl | hr := List.mem_cons.mp hr
                · exact absurd hhi hi
                · exact ⟨r, hr, hlo, hhi⟩
          · refine List.pairwise_cons.mpr ⟨fun r hr => ?_, hafter.gaps⟩
            obtain ⟨h1, h2, h3⟩ := hafter.inside r hr
            have hrset := (hafter.bits r.1 h1 (by omega)).mpr ⟨r, hr, Nat.le_refl _, h2⟩
            -- the bit after the run is clear, so the next run starts later
            have hne : r.1 ≠ e + 1 := fun heq => by
              rw [heq, hend (by omega)] at hrset
              cases hrset
            show e + 1 < r.1
            omega
        · rename_i hclear
          refine (ih (atWord_succ hne) h).skip (by omega) fun i h1 h2 => ?_
          obtain rfl : i = bit := by omega
          simpa using hclear
    · rename_i hbit
      obtain rfl := Option.some.inj h
      exact ⟨fun r hr => absurd hr List.not_mem_nil, fun i h1 h2 => absurd h2 (by omega),
        List.Pairwise.nil⟩

/-- The counter of the loop stays in range. -/
def LoopEnds (b : Bitstr) : Prop := b.nbits ≤ maxLoop ∨ b.words.getD (maxLoop / 32) 0 ≠ 0

theorem fmtLoop_of_ends {b : Bitstr} (hmax : b.nbits ≤ maxBits) (hends : LoopEnds b)
    {fuel bit : Nat} (hfuel : b.nbits ≤ bit + fuel) (hword : AtWord b bit) :
    ∃ runs, fmtLoop b fuel bit = some runs := by
  have hloop : maxLoop = 2147483616 := rfl
  have hbits : maxBits = 2147483647 := rfl
  induction fuel generalizing bit with
  | zero => exact ⟨[], by rw [fmtLoop, if_neg (by omega)]⟩
  | succ fuel ih =>
    rw [fmtLoop]
    split
    · rename_i hbit
      split
      · rename_i hzero
        have hmod : bit % 32 = 0 := hword.resolve_right (not_not.mpr hzero)
        have hnext : bit + 32 ≤ maxBits := by
          by_contra hover
          have hlast : bit / 32 = maxLoop / 32 := by omega
          obtain hsmall | hne := hends
          · omega
          · rw [hlast] at hzero
            exact hne hzero
        rw [if_pos hnext]
        exact ih (by omega) (Or.inl (by omega))
      · rename_i hne
        split
        · rename_i hset
          obtain ⟨hle, hlt, hall, -⟩ :=
            runEnd_spec (show b.nbits ≤ bit + 1 + b.nbits by omega) hbit hset
          obtain ⟨runs, hruns⟩ := @ih (runEnd b b.nbits bit + 1) (by omega)
            (atWord_succ (word_ne_zero_of_bit (hall _ hle (Nat.le_refl _))))
          exact ⟨_, by rw [hruns]; rfl⟩
        · exact ih (by omega) (atWord_succ hne)
    · exact ⟨[], rfl⟩

/-- Where the last word of a bitmap of more than `maxLoop` bits is zero, the
loop runs past the bitmap. -/
theorem fmtLoop_overruns {b : Bitstr} (hbig : maxLoop < b.nbits)
    (hzero : b.words.getD (maxLoop / 32) 0 = 0) {fuel bit : Nat} (hbit : bit ≤ maxLoop)
    (hmax : b.nbits ≤ maxBits) (hword : AtWord b bit) : fmtLoop b fuel bit = none := by
  have hloop : maxLoop = 2147483616 := rfl
  have hbits : maxBits = 2147483647 := rfl
  have hlast : ∀ i, maxLoop ≤ i → i < b.nbits → bitTest b i = false := fun i h1 h2 =>
    bit_of_word_zero hzero (by omega)
  induction fuel generalizing bit with
  | zero => rw [fmtLoop, if_pos (by omega)]
  | succ fuel ih =>
    rw [fmtLoop, if_pos (by omega)]
    by_cases hend : bit = maxLoop
    · subst hend
      rw [if_pos hzero, if_neg (by decide)]
    · split
      · rename_i hskip
        have hmod : bit % 32 = 0 := hword.resolve_right (not_not.mpr hskip)
        rw [if_pos (by omega)]
        exact ih (by omega) (Or.inl (by omega))
      · rename_i hne
        split
        · rename_i hset
          obtain ⟨hle, hlt, hall, -⟩ :=
            runEnd_spec (show b.nbits ≤ bit + 1 + b.nbits by omega) (by omega) hset
          have hbefore : runEnd b b.nbits bit < maxLoop := by
            by_contra hge
            have hone := hall _ hle (Nat.le_refl _)
            rw [hlast _ (by omega) hlt] at hone
            cases hone
          rw [ih (by omega) (atWord_succ (word_ne_zero_of_bit (hall _ hle (Nat.le_refl _))))]
          rfl
        · exact ih (by omega) (atWord_succ hne)

/-! ## The text -/

/-- The whole text of some runs. -/
def textOf : List (Nat × Nat) → List Char
  | [] => []
  | [r] => rangeText r
  | r :: r' :: rest => '[' :: (((r :: r' :: rest).flatMap runText).dropLast ++ [']'])

/-- The whole text of a bitmap. -/
def fmtText (b : Bitstr) : Option (List Char) := (fmtRuns b).map textOf

theorem foldl_emit {len : Nat} {runs : List (Nat × Nat)} {str : List Char}
    (h : str.length + (runs.flatMap runText).length + 1 ≤ len) :
    runs.foldl (emit len) str = str ++ runs.flatMap runText := by
  induction runs generalizing str with
  | nil => simp
  | cons r runs ih =>
    rw [List.flatMap_cons, List.length_append] at h
    have hemit : emit len str r = str ++ runText r := by
      rw [emit, List.take_of_length_le (by omega)]
    rw [List.foldl_cons, hemit, ih (by rw [List.length_append]; omega), List.flatMap_cons,
      List.append_assoc]

theorem flatMap_runText (r : Nat × Nat) (runs : List (Nat × Nat)) :
    ((r :: runs).flatMap runText).dropLast ++ [','] = (r :: runs).flatMap runText := by
  have hlast : ∀ runs : List (Nat × Nat), runs ≠ [] →
      ∃ front, runs.flatMap runText = front ++ [','] := by
    intro runs hne
    obtain ⟨front, last, rfl⟩ := List.eq_nil_or_concat runs |>.resolve_left hne
    exact ⟨front.flatMap runText ++ rangeText last, by simp [runText]⟩
  obtain ⟨front, hfront⟩ := hlast (r :: runs) (List.cons_ne_nil _ _)
  rw [hfront, List.dropLast_concat]

/-- A bitmap of two runs or more is printed whole into a buffer that has a byte more than its
text and the NUL need; in one that has not the last assertion fails. -/
theorem bitFmt_of_many {b : Bitstr} {len : Nat} {r r' : Nat × Nat} {rest : List (Nat × Nat)}
    (hruns : fmtRuns b = some (r :: r' :: rest)) (hfit : (textOf (r :: r' :: rest)).length < len) :
    bitFmt len b = if (textOf (r :: r' :: rest)).length + 1 < len then
      some (textOf (r :: r' :: rest)) else none := by
  rw [bitFmt, hruns, Option.bind_some]
  have hcomma := congrArg List.length (flatMap_runText r (r' :: rest))
  simp only [textOf, List.length_cons, List.length_append, List.length_nil] at hfit hcomma
  rw [foldl_emit (by simp only [List.length_nil]; omega), List.nil_append]
  have hne : (r :: r' :: rest).flatMap runText ≠ [] := by
    intro h
    rw [h] at hcomma
    simp at hcomma
  have hlen : (textOf (r :: r' :: rest)).length =
      ((r :: r' :: rest).flatMap runText).dropLast.length + 2 := by
    simp only [textOf, List.length_cons, List.length_append, List.length_nil]
  simp only [List.length_cons, Nat.succ_ne_zero, if_false, hne]
  rw [if_pos (by omega), hlen]
  exact if_congr (by omega) rfl rfl

/-- One run is printed whole where there is room for the comma as well. -/
theorem bitFmt_of_roomy {b : Bitstr} {len : Nat} {r : Nat × Nat} (hruns : fmtRuns b = some [r])
    (hfit : (rangeText r).length + 1 < len) : bitFmt len b = some (rangeText r) := by
  rw [bitFmt, hruns, Option.bind_some, foldl_emit]
  · simp [runText]
  · simp only [List.flatMap_cons, List.flatMap_nil, List.append_nil, runText, List.length_append,
      List.length_nil, List.length_singleton]
    omega

theorem rangeText_ne_nil (r : Nat × Nat) : rangeText r ≠ [] := by
  unfold rangeText
  split
  · exact decimal_ne_nil _
  · exact List.append_ne_nil_of_right_ne_nil _ (List.cons_ne_nil _ _)

/-- One run loses its last digit where the comma has no room. -/
theorem bitFmt_of_tight {b : Bitstr} {len : Nat} {r : Nat × Nat} (hruns : fmtRuns b = some [r])
    (hfit : (rangeText r).length + 1 = len) : bitFmt len b = some (rangeText r).dropLast := by
  have hemit : emit len [] r = rangeText r := by
    rw [emit, List.nil_append, List.length_nil, Nat.sub_zero, ← hfit, Nat.add_sub_cancel, runText,
      List.take_left]
  rw [bitFmt, hruns, Option.bind_some]
  simp only [List.foldl_cons, List.foldl_nil, hemit]
  rw [if_neg (by simp), if_neg (rangeText_ne_nil r), if_neg (by simp)]

/-! ## Reading the text -/

theorem foldl_scanInt_digits {ds : List Char} (s : IntScan) (hd : Digits ds) :
    ds.foldl scanInt s = { s with sum := ds.foldl pushDigit s.sum } := by
  induction ds generalizing s with
  | nil => rfl
  | cons c ds ih =>
    have hc : c.isDigit = true := hd c List.mem_cons_self
    rw [List.foldl_cons, scanInt, if_pos hc, ih _ fun d hd' => hd d (List.mem_cons_of_mem _ hd')]
    rfl

theorem scanInt_dash (s : IntScan) : scanInt s '-' = { s with startVal := s.sum, sum := 0 } := by
  simp [scanInt]

theorem scanInt_comma (s : IntScan) : scanInt s ',' = s.pair := by
  simp [scanInt]

/-- One number is a pair of itself. -/
theorem pair_number {ds : List Char} (pairs : List (Int × Int)) (hd : Digits ds)
    (hbound : value ds < 2147483648) :
    (ds.foldl scanInt ⟨0, -1, pairs⟩).pair =
      ⟨0, -1, pairs ++ [((value ds : Int), (value ds : Int))]⟩ := by
  rw [foldl_scanInt_digits _ hd, foldl_pushDigit_zero hd hbound]
  rfl

/-- Two numbers with a dash between them are a pair. -/
theorem pair_range {ds ds' : List Char} (pairs : List (Int × Int)) (hd : Digits ds)
    (hd' : Digits ds') (hbound : value ds < 2147483648) (hbound' : value ds' < 2147483648) :
    ((ds ++ '-' :: ds').foldl scanInt ⟨0, -1, pairs⟩).pair =
      ⟨0, -1, pairs ++ [((value ds : Int), (value ds' : Int))]⟩ := by
  rw [List.foldl_append, foldl_scanInt_digits _ hd, foldl_pushDigit_zero hd hbound, List.foldl_cons,
    scanInt_dash, foldl_scanInt_digits _ hd']
  simp only [IntScan.pair]
  rw [foldl_pushDigit_zero hd' hbound', if_neg (by omega)]

/-- Runs as the pairs `bitfmt2int` stores. -/
def pairsOf (runs : List (Nat × Nat)) : List (Int × Int) :=
  runs.map fun r : Nat × Nat => ((r.1 : Int), (r.2 : Int))

theorem pair_rangeText {r : Nat × Nat} (pairs : List (Int × Int)) (h1 : r.1 < 2147483648)
    (h2 : r.2 < 2147483648) :
    ((rangeText r).foldl scanInt ⟨0, -1, pairs⟩).pair = ⟨0, -1, pairs ++ pairsOf [r]⟩ := by
  unfold rangeText
  split
  · rename_i heq
    rw [pair_number pairs (digits_decimal _) (by rwa [value_decimal]), value_decimal]
    simp [pairsOf, heq]
  · rw [pair_range pairs (digits_decimal _) (digits_decimal _) (by rwa [value_decimal])
      (by rwa [value_decimal]), value_decimal, value_decimal]
    rfl

theorem foldl_scanInt_runs {runs : List (Nat × Nat)} (pairs : List (Int × Int))
    (h : ∀ r ∈ runs, r.1 < 2147483648 ∧ r.2 < 2147483648) :
    (runs.flatMap runText).foldl scanInt ⟨0, -1, pairs⟩ = ⟨0, -1, pairs ++ pairsOf runs⟩ := by
  induction runs generalizing pairs with
  | nil => simp [pairsOf]
  | cons r runs ih =>
    have hr := h r List.mem_cons_self
    rw [List.flatMap_cons, List.foldl_append, runText, List.foldl_append, List.foldl_cons,
      List.foldl_nil, scanInt_comma, pair_rangeText pairs hr.1 hr.2,
      ih _ fun r' hr' => h r' (List.mem_cons_of_mem _ hr'), List.append_assoc]
    rfl

theorem head?_rangeText (r : Nat × Nat) : (rangeText r).head? ≠ some ',' := by
  have hdigit : ∀ n : Nat, (decimal n).head? ≠ some ',' := by
    intro n h
    have hmem := List.mem_of_mem_head? h
    exact absurd (digits_decimal n _ hmem) (by decide)
  unfold rangeText
  split
  · exact hdigit _
  · rw [List.head?_append_of_ne_nil _ (decimal_ne_nil _)]
    exact hdigit _

/-- The text of runs is read back as their pairs. -/
theorem bitfmt2int_text {runs : List (Nat × Nat)} (hne : runs ≠ [])
    (h : ∀ r ∈ runs, r.1 < 2147483648 ∧ r.2 < 2147483648) :
    bitfmt2int (textOf runs) = pairsOf runs := by
  match runs with
  | [] => exact absurd rfl hne
  | [r] =>
    have hr := h r List.mem_cons_self
    rw [textOf, bitfmt2int, if_neg, pair_rangeText [] hr.1 hr.2]
    · rfl
    · rintro (hhead | hnil)
      · exact head?_rangeText r hhead
      · exact rangeText_ne_nil r hnil
  | r :: r' :: rest =>
    have hall := foldl_scanInt_runs [] h
    rw [← flatMap_runText, List.foldl_append, List.foldl_cons, List.foldl_nil,
      scanInt_comma] at hall
    rw [textOf, bitfmt2int, if_neg (by simp), List.foldl_cons,
      show scanInt ⟨0, -1, []⟩ '[' = ⟨0, -1, []⟩ from rfl, List.foldl_append, List.foldl_cons,
      List.foldl_nil]
    have hclose : ∀ s : IntScan, scanInt s ']' = s := fun s => rfl
    rw [hclose, hall]
    rfl

/-! ## Setting the bits -/

/-- Pairs inside the bitmap set the bits they cover. -/
theorem unfmtLoop_pairs {runs : List (Nat × Nat)} {b : Bitstr}
    (h : ∀ r ∈ runs, r.1 < b.nbits ∧ r.2 < b.nbits) :
    (unfmtLoop b (pairsOf runs)).2.nbits = b.nbits ∧ ∀ i,
      (unfmtLoop b (pairsOf runs)).2.bit i = true ↔ b.bit i = true ∨ Covers runs i := by
  induction runs generalizing b with
  | nil => exact ⟨rfl, fun i => by simp [pairsOf, unfmtLoop, Covers]⟩
  | cons r runs ih =>
    obtain ⟨h1, h2⟩ := h r List.mem_cons_self
    have hn : (bitNset b r.1 r.2).nbits = b.nbits := (bitNput_spec ..).1
    have hstep : unfmtLoop b (pairsOf (r :: runs)) =
        unfmtLoop (bitNset b r.1 r.2) (pairsOf runs) := by
      rw [pairsOf, List.map_cons, unfmtLoop, if_neg (by omega), if_neg (by omega),
        Int.toNat_natCast,
        Int.toNat_natCast]
      rfl
    obtain ⟨hsize, hbits⟩ := @ih (bitNset b r.1 r.2) fun r' hr' => by
      rw [hn]
      exact h r' (List.mem_cons_of_mem _ hr')
    rw [hstep]
    refine ⟨hsize.trans hn, fun i => ?_⟩
    rw [hbits, bitNset, bit_bitNput (by omega)]
    have hcover : Covers (r :: runs) i ↔ (r.1 ≤ i ∧ i ≤ r.2) ∨ Covers runs i := by
      simp [Covers]
    rw [hcover]
    by_cases hi : r.1 ≤ i ∧ i ≤ r.2
    · rw [if_pos (by omega)]
      simp [hi]
    · rw [if_neg (by omega)]
      simp [hi]

/-- Text that is read as pairs inside the bitmap sets the bits they cover, and
no others. -/
theorem bitUnfmt_pairs {b : Bitstr} {str : List Char} {runs : List (Nat × Nat)} (hne : str ≠ [])
    (hpairs : bitfmt2int str = pairsOf runs) (h : ∀ r ∈ runs, r.1 < b.nbits ∧ r.2 < b.nbits) :
    (bitUnfmt b str).2.nbits = b.nbits ∧
      ∀ i < b.nbits, bitTest (bitUnfmt b str).2 i = true ↔ Covers runs i := by
  have hn : (bitNput false b 0 b.nbits).nbits = b.nbits := (bitNput_spec ..).1
  rw [bitUnfmt, if_neg hne, hpairs]
  obtain ⟨hsize, hbits⟩ := @unfmtLoop_pairs runs (bitNput false b 0 b.nbits) fun r hr => by
    rw [hn]
    exact h r hr
  refine ⟨hsize.trans hn, fun i hi => ?_⟩
  rw [bitTest, hbits, bit_bitNput (by omega), if_pos (by omega)]
  simp

/-! ## Round trip -/

/-- No bit is set. -/
def Empty (b : Bitstr) : Prop := ∀ i < b.nbits, bitTest b i = false

/-- The bits set are those from `start` to `stop`. -/
def OneRun (b : Bitstr) (start stop : Nat) : Prop :=
  (start ≤ stop ∧ stop < b.nbits) ∧
    ∀ i < b.nbits, bitTest b i = true ↔ start ≤ i ∧ i ≤ stop

theorem RunsFrom.empty_iff {b : Bitstr} {runs : List (Nat × Nat)} (h : RunsFrom b 0 runs) :
    Empty b ↔ runs = [] := by
  constructor
  · intro hempty
    by_contra hne
    obtain ⟨r, rest, rfl⟩ := List.exists_cons_of_ne_nil hne
    obtain ⟨-, hle, hlt⟩ := h.inside r List.mem_cons_self
    have hset := (h.bits r.1 (Nat.zero_le _) (by omega)).mpr ⟨r, List.mem_cons_self, Nat.le_refl _,
        hle⟩
    rw [hempty r.1 (by omega)] at hset
    cases hset
  · rintro rfl i hi
    by_contra hset
    obtain ⟨r, hr, -⟩ := (h.bits i (Nat.zero_le _) hi).mp (by simpa using hset)
    exact absurd hr List.not_mem_nil

theorem RunsFrom.oneRun_iff {b : Bitstr} {runs : List (Nat × Nat)} (h : RunsFrom b 0 runs)
    (start stop : Nat) : OneRun b start stop ↔ runs = [(start, stop)] := by
  constructor
  · rintro ⟨⟨hle, hlt⟩, hbits⟩
    have hset : ∀ i, start ≤ i → i ≤ stop → Covers runs i := fun i h1 h2 =>
      (h.bits i (Nat.zero_le _) (by omega)).mp ((hbits i (by omega)).mpr ⟨h1, h2⟩)
    -- the ends of every run are set, so they lie between `start` and `stop`
    have hends : ∀ r ∈ runs, start ≤ r.1 ∧ r.2 ≤ stop := by
      intro r hr
      obtain ⟨-, hr1, hr2⟩ := h.inside r hr
      have hfirst := (hbits r.1 (by omega)).mp
        ((h.bits r.1 (Nat.zero_le _) (by omega)).mpr ⟨r, hr, Nat.le_refl _, hr1⟩)
      have hlast := (hbits r.2 hr2).mp
        ((h.bits r.2 (Nat.zero_le _) hr2).mpr ⟨r, hr, hr1, Nat.le_refl _⟩)
      exact ⟨hfirst.1, hlast.2⟩
    match runs with
    | [] =>
      obtain ⟨r, hr, -⟩ := hset start (Nat.le_refl _) hle
      exact absurd hr List.not_mem_nil
    | [r] =>
      obtain ⟨h1, h2⟩ := hends r List.mem_cons_self
      obtain ⟨r₁, hr₁, hlo, -⟩ := hset start (Nat.le_refl _) hle
      obtain ⟨r₂, hr₂, -, hhi⟩ := hset stop hle (Nat.le_refl _)
      obtain rfl := List.mem_singleton.mp hr₁
      obtain rfl := List.mem_singleton.mp hr₂
      exact congrArg (fun r => [r]) (Prod.ext (by omega) (by omega))
    | r :: r' :: rest =>
      -- the bit after the first run is not covered
      obtain ⟨h1, -⟩ := hends r List.mem_cons_self
      obtain ⟨-, h2⟩ := hends r' (List.mem_cons_of_mem _ List.mem_cons_self)
      obtain ⟨-, hr1, -⟩ := h.inside r List.mem_cons_self
      obtain ⟨-, hr1', -⟩ := h.inside r' (List.mem_cons_of_mem _ List.mem_cons_self)
      obtain ⟨hgap, -⟩ := List.pairwise_cons.mp h.gaps
      have hnext := hgap r' List.mem_cons_self
      obtain ⟨q, hq, hlo, hhi⟩ := hset (r.2 + 1) (by omega) (by omega)
      obtain rfl | hq := List.mem_cons.mp hq
      · omega
      · have := hgap q hq
        omega
  · rintro rfl
    obtain ⟨-, hle, hlt⟩ := h.inside (start, stop) List.mem_cons_self
    refine ⟨⟨hle, hlt⟩, fun i hi => ?_⟩
    rw [h.bits i (Nat.zero_le _) hi]
    simp [Covers]

/-- A number without its last digit. -/
theorem dropLast_decimal (n : Nat) :
    Digits (decimal n).dropLast ∧ value (decimal n).dropLast = n / 10 ∧
      ((decimal n).dropLast = [] ↔ n < 10) := by
  by_cases hn : n < 10
  · have hlen : (decimal n).length = 1 := by
      have h1 : ndigits n ≤ 1 := (ndigits_le_iff (by omega)).mpr (by omega)
      have h2 := ndigits_pos n
      show ndigits n = 1
      omega
    have hnil : (decimal n).dropLast = [] := by
      apply List.eq_nil_of_length_eq_zero
      rw [List.length_dropLast, hlen]
    rw [hnil]
    refine ⟨fun c hc => absurd hc List.not_mem_nil, ?_, iff_of_true rfl hn⟩
    rw [Nat.div_eq_of_lt hn]
    rfl
  · have hsplit : decimal n = decimal (n / 10) ++ decimal (n % 10) := by
      rw [← decimal_ten_mul_add (by omega) (Nat.mod_lt n (by omega))]
      congr 1
      omega
    have hlen : (decimal (n % 10)).length = 1 := by
      have h1 : ndigits (n % 10) ≤ 1 := (ndigits_le_iff (by omega)).mpr (by omega)
      have h2 := ndigits_pos (n % 10)
      show ndigits (n % 10) = 1
      omega
    obtain ⟨c, hc⟩ := List.length_eq_one_iff.mp hlen
    have hdrop : (decimal n).dropLast = decimal (n / 10) := by
      rw [hsplit, hc, List.dropLast_concat]
    rw [hdrop]
    exact ⟨digits_decimal _, value_decimal _, iff_of_false (decimal_ne_nil _) hn⟩

theorem rangeText_dropLast_eq_nil_iff (start stop : Nat) :
    (rangeText (start, stop)).dropLast = [] ↔ start = stop ∧ start < 10 := by
  by_cases heq : start = stop
  · subst heq
    rw [rangeText, if_pos rfl, (dropLast_decimal start).2.2]
    simp
  · rw [rangeText, if_neg heq]
    refine iff_of_false (fun h => ?_) fun h => heq h.1
    rw [List.dropLast_append_of_ne_nil (List.cons_ne_nil _ _)] at h
    exact decimal_ne_nil _ (List.append_eq_nil_iff.mp h).1

/-- A run without its last digit is read as a pair that stops short of the
run's end. -/
theorem bitfmt2int_dropLast {start stop : Nat} (hle : start ≤ stop) (hmax : stop < 2147483648)
    (hne : (rangeText (start, stop)).dropLast ≠ []) :
    ∃ p q, bitfmt2int (rangeText (start, stop)).dropLast = pairsOf [(p, q)] ∧ p ≤ start ∧
      (q < stop) := by
  obtain ⟨hd, hv, hnil⟩ := dropLast_decimal stop
  by_cases heq : start = stop
  · subst heq
    rw [rangeText, if_pos rfl] at hne ⊢
    have hbig : ¬ start < 10 := fun h => hne (hnil.mpr h)
    refine ⟨start / 10, start / 10, ?_, by omega, by omega⟩
    rw [bitfmt2int, if_neg, pair_number [] hd (by omega), hv]
    · rfl
    · rintro (hhead | hnone)
      · exact absurd (hd _ (List.mem_of_mem_head? hhead)) (by decide)
      · exact hne hnone
  · rw [rangeText, if_neg heq] at hne ⊢
    have hdrop : (decimal start ++ '-' :: decimal stop).dropLast =
        decimal start ++ '-' :: (decimal stop).dropLast := by
      rw [List.dropLast_append_of_ne_nil (List.cons_ne_nil _ _),
        List.dropLast_cons_of_ne_nil (decimal_ne_nil _)]
    refine ⟨start, stop / 10, ?_, Nat.le_refl _, by omega⟩
    rw [hdrop, bitfmt2int, if_neg,
      pair_range [] (digits_decimal _) hd (by rw [value_decimal]; omega)
      (by omega), hv, value_decimal]
    · rfl
    · rintro (hhead | hnone)
      · rw [List.head?_append_of_ne_nil _ (decimal_ne_nil _)] at hhead
        exact absurd (digits_decimal _ _ (List.mem_of_mem_head? hhead)) (by decide)
      · exact absurd hnone (List.append_ne_nil_of_right_ne_nil _ (List.cons_ne_nil _ _))

/-- The whole text of the runs sets their bits and no other. -/
theorem RunsFrom.whole {b b2 : Bitstr} {runs : List (Nat × Nat)} (h : RunsFrom b 0 runs)
    (hsize : b2.nbits = b.nbits) (hmax : b.nbits ≤ maxBits) (hne : runs ≠ [])
    (htext : textOf runs ≠ []) : SameBits (bitUnfmt b2 (textOf runs)).2 b := by
  have hbits : maxBits = 2147483647 := rfl
  have hin : ∀ r ∈ runs, r.1 < b2.nbits ∧ r.2 < b2.nbits := fun r hr => by
    obtain ⟨-, h1, h2⟩ := h.inside r hr
    omega
  have hsmall : ∀ r ∈ runs, r.1 < 2147483648 ∧ r.2 < 2147483648 := fun r hr => by
    obtain ⟨h1, h2⟩ := hin r hr
    omega
  obtain ⟨hn, hset⟩ := bitUnfmt_pairs htext (bitfmt2int_text hne hsmall) hin
  refine ⟨hn.trans hsize, fun i hi => ?_⟩
  rw [hn] at hi
  rw [Bool.eq_iff_iff, hset i hi, h.bits i (Nat.zero_le _) (by omega)]

/-- Without its last digit a run is read back only where nothing is left of it. -/
theorem RunsFrom.cut {b b2 : Bitstr} {start stop : Nat} (h : RunsFrom b 0 [(start, stop)])
    (hsize : b2.nbits = b.nbits) (hmax : b.nbits ≤ maxBits) :
    SameBits (bitUnfmt b2 (rangeText (start, stop)).dropLast).2 b ↔
      start = stop ∧ start < 10 ∧ SameBits b2 b := by
  have hbits : maxBits = 2147483647 := rfl
  have hlost := rangeText_dropLast_eq_nil_iff start stop
  obtain ⟨-, hle, hlt⟩ := h.inside (start, stop) List.mem_cons_self
  by_cases hnil : (rangeText (start, stop)).dropLast = []
  · -- the other bitmap stays as it is
    obtain ⟨heq, hten⟩ := hlost.mp hnil
    rw [hnil]
    exact ⟨fun hsame => ⟨heq, hten, hsame⟩, fun h => h.2.2⟩
  · -- the run's last bit is not set
    refine iff_of_false (fun hsame => ?_) fun h => hnil (hlost.mpr ⟨h.1, h.2.1⟩)
    obtain ⟨p, q, hpairs, hp, hq⟩ := bitfmt2int_dropLast hle (by omega) hnil
    obtain ⟨hn, hset⟩ := @bitUnfmt_pairs b2 _ [(p, q)] hnil hpairs fun r hr => by
      obtain rfl := List.mem_singleton.mp hr
      show p < b2.nbits ∧ q < b2.nbits
      omega
    have hone := (h.bits stop (Nat.zero_le _) hlt).mpr
      ⟨_, List.mem_cons_self, hle, Nat.le_refl _⟩
    obtain ⟨r, hr, -, hhi⟩ := (hset stop (by omega)).mp
      ((hsame.2 stop (by rw [hn]; omega)).trans hone)
    obtain rfl := List.mem_singleton.mp hr
    have hhi : stop ≤ q := hhi
    omega

/-- Printing a bitmap into a buffer that holds its whole text and reading the
text into another bitmap of its size makes the two equal, exactly when the loop
over the words ends, an empty bitmap is read into an empty one, and for any other
the buffer has a byte more than the text and the NUL need (or the bitmap is a
single bit below ten, whose text is lost, and is read into itself). -/
theorem bitUnfmt_bitFmt_iff {b b2 : Bitstr} {len : Nat} (hsize : b2.nbits = b.nbits)
    (hmax : b.nbits ≤ maxBits) (hfit : ∀ text, fmtText b = some text → text.length < len) :
    (∃ text, bitFmt len b = some text ∧ SameBits (bitUnfmt b2 text).2 b) ↔
      LoopEnds b ∧ (Empty b → Empty b2) ∧
        ∀ text, fmtText b = some text → Empty b ∨ text.length + 1 ≠ len ∨
          ∃ bit, OneRun b bit bit ∧ bit < 10 ∧ SameBits b2 b := by
  have hzero : AtWord b 0 := Or.inl rfl
  by_cases hends : LoopEnds b
  · obtain ⟨runs, hruns⟩ := fmtLoop_of_ends hmax hends (show b.nbits ≤ 0 + b.nbits by omega) hzero
    have hspec := fmtLoop_spec hzero hruns
    have hruns : fmtRuns b = some runs := hruns
    have htext : fmtText b = some (textOf runs) := by rw [fmtText, hruns]; rfl
    have hfit := hfit (textOf runs) htext
    have hwhole := hspec.whole hsize hmax
    rw [hspec.empty_iff]
    simp only [hspec.oneRun_iff, hends, true_and, htext, Option.some.injEq, forall_eq']
    match runs with
    | [] =>
      have hprint : bitFmt len b = some (textOf []) := by rw [bitFmt, hruns]; rfl
      rw [hprint]
      constructor
      · rintro ⟨text, htext, hsame⟩
        obtain rfl : textOf [] = text := Option.some.inj htext
        have hsame : SameBits b2 b := hsame
        refine ⟨fun _ i hi => ?_, Or.inl rfl⟩
        have hb := hspec.empty_iff.mpr rfl i (by omega)
        exact (hsame.2 i hi).trans hb
      · rintro ⟨hempty, -⟩
        refine ⟨_, rfl, hsize, fun i hi => ?_⟩
        have hi : i < b2.nbits := hi
        exact (hempty rfl i hi).trans (hspec.empty_iff.mpr rfl i (by omega)).symm
    | [(start, stop)] =>
      obtain hroomy | htight := Nat.lt_or_eq_of_le (Nat.succ_le_of_lt hfit)
      · rw [bitFmt_of_roomy hruns hroomy]
        exact iff_of_true ⟨_, rfl, hwhole (List.cons_ne_nil _ _) (rangeText_ne_nil _)⟩
          ⟨fun h => (by cases h), Or.inr (Or.inl (Nat.ne_of_lt hroomy))⟩
      · rw [bitFmt_of_tight hruns htight]
        simp only [Option.some.injEq, exists_eq_left', hspec.cut hsize hmax]
        constructor
        · rintro ⟨heq, hten, hsame⟩
          exact ⟨fun h => (by cases h), Or.inr (Or.inr ⟨start, by rw [heq], hten, hsame⟩)⟩
        · rintro ⟨-, hempty | hne | ⟨bit, hone, hten, hsame⟩⟩
          · cases hempty
          · exact absurd htight hne
          · obtain ⟨rfl, rfl⟩ : start = bit ∧ stop = bit := by simpa using hone
            exact ⟨rfl, hten, hsame⟩
    | r :: r' :: rest =>
      rw [bitFmt_of_many hruns hfit]
      by_cases hroom : (textOf (r :: r' :: rest)).length + 1 < len
      · rw [if_pos hroom]
        exact iff_of_true ⟨_, rfl, hwhole (List.cons_ne_nil _ _) (List.cons_ne_nil _ _)⟩
          ⟨fun h => (by cases h), Or.inr (Or.inl (Nat.ne_of_lt hroom))⟩
      · -- the assertion before the braces fails
        rw [if_neg hroom]
        refine iff_of_false (fun ⟨_, h, _⟩ => (by cases h)) ?_
        rintro ⟨-, hempty | hne | ⟨bit, hone, -⟩⟩
        · cases hempty
        · omega
        · cases hone
  · -- the loop overruns the bitmap
    refine iff_of_false ?_ fun h => hends h.1
    rintro ⟨text, htext, -⟩
    rw [LoopEnds, not_or, not_not] at hends
    have hnone : fmtRuns b = none :=
      fmtLoop_overruns (Nat.lt_of_not_le hends.1) hends.2 (Nat.zero_le _) hmax hzero
    rw [bitFmt, hnone] at htext
    cases htext

/-- An empty bitmap read into a bitmap with a bit set leaves the bit there. -/
theorem stale_bit : ∃ text, bitFmt 10 (bitAlloc 8) = some text ∧
    ¬ SameBits (bitUnfmt (bitSet (bitAlloc 8) 3) text).2 (bitAlloc 8) :=
  ⟨[], by decide, by decide⟩

/-- Two runs. -/
theorem two_runs_back : ∃ text, bitFmt 10 (bitNset (bitSet (bitAlloc 8) 1) 3 5) = some text ∧
    SameBits (bitUnfmt (bitSet (bitAlloc 8) 0) text).2 (bitNset (bitSet (bitAlloc 8) 1) 3 5) := by
  refine (@bitUnfmt_bitFmt_iff (bitNset (bitSet (bitAlloc 8) 1) 3 5) (bitSet (bitAlloc 8) 0) 10
    (by decide) (by decide) ?_).mpr ⟨Or.inl (by decide), ?_, ?_⟩
  · have htext : fmtText (bitNset (bitSet (bitAlloc 8) 1) 3 5) = some "[1,3-5]".toList := by decide
    intro text h
    rw [htext] at h
    obtain rfl := Option.some.inj h
    decide
  · intro h
    exact absurd (h 1 (by decide)) (by decide)
  · intro text h
    have htext : fmtText (bitNset (bitSet (bitAlloc 8) 1) 3 5) = some "[1,3-5]".toList := by decide
    rw [htext] at h
    obtain rfl := Option.some.inj h
    exact Or.inr (Or.inl (by decide))

end Slurm.Bitstring
