import SlurmLite.Base.Text

/-!
# The C side of a translation

Machine words as numbers with an explicit wrap, and the string functions of
the C library a translated program calls: `strcmp`, `strchr`, `strrchr`,
`strtoul`. Strings are lists of characters without the terminating NUL;
pointers into a string are the pieces they cut it into.
-/

namespace Base.CLib

open Base.Text

/-! ## Words -/

/-- The largest `unsigned long`. -/
abbrev ulongMax : Nat := 18446744073709551615

/-- Conversion to `unsigned long`. -/
def ulong (x : Int) : Nat := (x % 18446744073709551616).toNat

/-- Conversion to a 32-bit `int`. -/
def int32 (x : Int) : Int := x.bmod 4294967296

/-- Conversion to `uint32_t`. -/
def uint32 (x : Int) : Nat := (x % 4294967296).toNat

theorem ulong_lt (x : Int) : ulong x < 18446744073709551616 := by
  unfold ulong
  omega

theorem ulong_of_lt {n : Nat} (h : n < 18446744073709551616) : ulong n = n := by
  unfold ulong
  omega

theorem int32_of_range {x : Int} (h1 : -2147483648 ≤ x) (h2 : x < 2147483648) :
    int32 x = x := by
  unfold int32
  rw [Int.bmod_def]
  split <;> omega

theorem int32_lt (x : Int) : int32 x < 2147483648 := by
  unfold int32
  rw [Int.bmod_def]
  split <;> omega

@[simp] theorem int32_int32 (x : Int) : int32 (int32 x) = int32 x := Int.bmod_bmod

@[simp] theorem int32_int32_add (x y : Int) : int32 (int32 x + y) = int32 (x + y) :=
  Int.bmod_add_bmod

@[simp] theorem int32_int32_sub (x y : Int) : int32 (int32 x - y) = int32 (x - y) :=
  Int.bmod_sub_bmod

@[simp] theorem int32_sub_int32 (x y : Int) : int32 (x - int32 y) = int32 (x - y) :=
  Int.sub_bmod_bmod

theorem uint32_lt (x : Int) : uint32 x < 4294967296 := by
  unfold uint32
  omega

theorem uint32_of_lt {n : Nat} (h : n < 4294967296) : uint32 n = n := by
  unfold uint32
  omega

/-! ## String comparison -/

/-- `strcmp`, up to the size of the result: only its sign is defined. -/
def strcmp : List Char → List Char → Int
  | [], [] => 0
  | [], _ :: _ => -1
  | _ :: _, [] => 1
  | a :: s, b :: t => if a = b then strcmp s t else if a.toNat < b.toNat then -1 else 1

theorem strcmp_nil_cons (b : Char) (t : List Char) : strcmp [] (b :: t) = -1 := rfl

theorem strcmp_cons_nil (a : Char) (s : List Char) : strcmp (a :: s) [] = 1 := rfl

theorem strcmp_cons_cons (a b : Char) (s t : List Char) : strcmp (a :: s) (b :: t) =
    if a = b then strcmp s t else if a.toNat < b.toNat then -1 else 1 := rfl

theorem strcmp_eq_zero_iff {s t : List Char} : strcmp s t = 0 ↔ s = t := by
  induction s generalizing t with
  | nil =>
    cases t with
    | nil => exact iff_of_true rfl rfl
    | cons b t => simp [strcmp_nil_cons]
  | cons a s ih =>
    cases t with
    | nil => simp [strcmp_cons_nil]
    | cons b t =>
      simp only [strcmp_cons_cons]
      by_cases hab : a = b
      · rw [if_pos hab, ih]
        simp [hab]
      · rw [if_neg hab]
        split <;> simp [hab]

@[simp] theorem strcmp_self (s : List Char) : strcmp s s = 0 :=
  strcmp_eq_zero_iff.mpr rfl

theorem strcmp_antisymm (s t : List Char) : strcmp t s = -strcmp s t := by
  induction s generalizing t with
  | nil =>
    cases t with
    | nil => exact rfl
    | cons b t => simp [strcmp_nil_cons, strcmp_cons_nil]
  | cons a s ih =>
    cases t with
    | nil => simp [strcmp_nil_cons, strcmp_cons_nil]
    | cons b t =>
      simp only [strcmp_cons_cons]
      by_cases hab : a = b
      · rw [if_pos hab, if_pos hab.symm, ih]
      · rw [if_neg hab, if_neg (Ne.symm hab)]
        have hne : a.toNat ≠ b.toNat := fun h => hab (Char.ext (UInt32.toNat_inj.mp h))
        rcases Nat.lt_or_gt_of_ne hne with h | h
        · rw [if_neg (by omega), if_pos h]
          rfl
        · rw [if_pos h, if_neg (by omega)]

theorem strcmp_trans {s t u : List Char} (h1 : strcmp s t ≤ 0) (h2 : strcmp t u ≤ 0) :
    strcmp s u ≤ 0 := by
  induction s generalizing t u with
  | nil =>
    cases u with
    | nil => exact Int.le_refl 0
    | cons c u => simp [strcmp_nil_cons]
  | cons a s ih =>
    cases t with
    | nil => simp [strcmp_cons_nil] at h1
    | cons b t =>
      cases u with
      | nil => simp [strcmp_cons_nil] at h2
      | cons c u =>
        simp only [strcmp_cons_cons] at h1 h2 ⊢
        by_cases hab : a = b
        · subst hab
          rw [if_pos rfl] at h1
          by_cases hac : a = c
          · rw [if_pos hac] at h2 ⊢
            exact ih h1 h2
          · rw [if_neg hac] at h2 ⊢
            exact h2
        · rw [if_neg hab] at h1
          have hlt : a.toNat < b.toNat := by
            by_contra hge
            rw [if_neg hge] at h1
            omega
          by_cases hbc : b = c
          · subst hbc
            rw [if_neg hab, if_pos hlt]
            omega
          · rw [if_neg hbc] at h2
            have hlt' : b.toNat < c.toNat := by
              by_contra hge
              rw [if_neg hge] at h2
              omega
            have hac : a ≠ c := by
              rintro rfl
              omega
            rw [if_neg hac, if_pos (by omega)]
            omega

/-! ## Searching -/

/-- `strchr`: the text before and after the first `c`. -/
def strchr (c : Char) : List Char → Option (List Char × List Char)
  | [] => none
  | a :: s => if a = c then some ([], s) else (strchr c s).map fun r => (a :: r.1, r.2)

/-- `strrchr`: the text before and after the last `c`. -/
def strrchr (c : Char) : List Char → Option (List Char × List Char)
  | [] => none
  | a :: s =>
    match strrchr c s with
    | some r => some (a :: r.1, r.2)
    | none => if a = c then some ([], s) else none

theorem strchr_cons (c a : Char) (s : List Char) : strchr c (a :: s) =
    if a = c then some ([], s) else (strchr c s).map fun r => (a :: r.1, r.2) := rfl

theorem strrchr_cons (c a : Char) (s : List Char) : strrchr c (a :: s) =
    match strrchr c s with
    | some r => some (a :: r.1, r.2)
    | none => if a = c then some ([], s) else none := rfl

theorem strchr_eq_none {c : Char} {s : List Char} (h : c ∉ s) : strchr c s = none := by
  induction s with
  | nil => rfl
  | cons a s ih =>
    rw [List.mem_cons, not_or] at h
    rw [strchr_cons, if_neg (Ne.symm h.1), ih h.2]
    rfl

theorem strchr_append {c : Char} {u : List Char} (h : c ∉ u) (v : List Char) :
    strchr c (u ++ c :: v) = some (u, v) := by
  induction u with
  | nil => rw [List.nil_append, strchr_cons, if_pos rfl]
  | cons a u ih =>
    rw [List.mem_cons, not_or] at h
    rw [List.cons_append, strchr_cons, if_neg (Ne.symm h.1), ih h.2]
    rfl

theorem eq_of_strchr {c : Char} {s u v : List Char} (h : strchr c s = some (u, v)) :
    s = u ++ c :: v := by
  induction s generalizing u with
  | nil => cases h
  | cons a s ih =>
    rw [strchr_cons] at h
    split at h
    next heq =>
      cases h
      rw [heq]
      rfl
    next =>
      obtain ⟨⟨u', v'⟩, hr, heq⟩ := Option.map_eq_some_iff.mp h
      cases heq
      exact congrArg _ (ih hr)

theorem not_mem_of_strchr_none {c : Char} {s : List Char} (h : strchr c s = none) : c ∉ s := by
  induction s with
  | nil => exact List.not_mem_nil
  | cons a s ih =>
    rw [strchr_cons] at h
    split at h
    · cases h
    next hne =>
      rw [List.mem_cons, not_or]
      exact ⟨Ne.symm hne, ih (Option.map_eq_none_iff.mp h)⟩

theorem not_mem_of_strchr {c : Char} {s u v : List Char} (h : strchr c s = some (u, v)) :
    c ∉ u := by
  induction s generalizing u with
  | nil => cases h
  | cons a s ih =>
    rw [strchr_cons] at h
    split at h
    · cases h
      exact List.not_mem_nil
    next hne =>
      obtain ⟨⟨u', v'⟩, hr, heq⟩ := Option.map_eq_some_iff.mp h
      cases heq
      rw [List.mem_cons, not_or]
      exact ⟨Ne.symm hne, ih hr⟩

theorem strrchr_eq_none {c : Char} {s : List Char} (h : c ∉ s) : strrchr c s = none := by
  induction s with
  | nil => rfl
  | cons a s ih =>
    rw [List.mem_cons, not_or] at h
    rw [strrchr_cons, ih h.2]
    exact if_neg (Ne.symm h.1)

theorem strrchr_append {c : Char} (u : List Char) {v : List Char} (h : c ∉ v) :
    strrchr c (u ++ c :: v) = some (u, v) := by
  induction u with
  | nil =>
    rw [List.nil_append, strrchr_cons, strrchr_eq_none h]
    exact if_pos rfl
  | cons a u ih => rw [List.cons_append, strrchr_cons, ih]

/-! ## Numbers read digit by digit -/

/-- `n = n * 10 + (c - '0')` in an `int`. -/
def pushDigit (n : Int) (c : Char) : Int := int32 (n * 10 + (c.toNat - 48))

/-- A run of digits read after the number `n`, as long as an `int` holds it. -/
theorem foldl_pushDigit {ds : List Char} (n : Nat) (hd : Digits ds)
    (hbound : 10 ^ ds.length * n + value ds < 2147483648) :
    ds.foldl pushDigit n = (10 ^ ds.length * n + value ds : Nat) := by
  induction ds generalizing n with
  | nil => simp [value]
  | cons c ds ih =>
    have hc : c.isDigit = true := hd c List.mem_cons_self
    have hcode : 48 ≤ c.toNat := by
      simp only [Char.isDigit, Bool.and_eq_true, decide_eq_true_eq] at hc
      exact UInt32.le_iff_toNat_le.mp hc.1
    have hvalue : value (c :: ds) = 10 ^ ds.length * (c.toNat - 48) + value ds := by
      rw [← List.singleton_append, value_append]
      simp [value, Nat.ofDigitChars]
    have hpow : 10 ^ (c :: ds).length * n + value (c :: ds) =
        10 ^ ds.length * (n * 10 + (c.toNat - 48)) + value ds := by
      rw [hvalue, List.length_cons, Nat.pow_succ]
      ring
    rw [hpow] at hbound ⊢
    have hsmall : n * 10 + (c.toNat - 48) < 2147483648 := by
      have : n * 10 + (c.toNat - 48) ≤ 10 ^ ds.length * (n * 10 + (c.toNat - 48)) :=
        Nat.le_mul_of_pos_left _ (by positivity)
      omega
    have hpush : pushDigit n c = (n * 10 + (c.toNat - 48) : Nat) := by
      rw [pushDigit, int32_of_range (by omega) (by omega)]
      omega
    rw [List.foldl_cons, hpush]
    exact ih _ (fun d hd' => hd d (List.mem_cons_of_mem _ hd')) hbound

/-- A run of digits read as a number of its own. -/
theorem foldl_pushDigit_zero {ds : List Char} (hd : Digits ds) (hbound : value ds < 2147483648) :
    ds.foldl pushDigit 0 = (value ds : Nat) := by
  have h := foldl_pushDigit 0 hd (by omega)
  simpa using h

/-! ## `strtoul` -/

/-- The characters `strtoul` skips before a number. -/
def isspace (c : Char) : Bool :=
  c = ' ' || c = '\t' || c = '\n' || c = '\r' || c.toNat = 11 || c.toNat = 12

/-- An optional sign: whether it is a minus, and the text after it. -/
def optSign : List Char → Bool × List Char
  | [] => (false, [])
  | c :: s => if c = '-' then (true, s) else if c = '+' then (false, s) else (false, c :: s)

/-- The number and the rest of the text after it, `none` when the text does not
start with a number (the end pointer is then the start). Base 10, saturating
at `ulongMax`; a minus sign negates the result in `unsigned long`. -/
def strtoul (s : List Char) : Option (Nat × List Char) :=
  let t := optSign (s.dropWhile isspace)
  let ds := t.2.takeWhile Char.isDigit
  if ds = [] then none
  else
    let v := value ds
    let n := if v > ulongMax then ulongMax else if t.1 then ulong (-v) else v
    some (n, t.2.dropWhile Char.isDigit)

theorem isspace_of_isDigit {c : Char} (h : c.isDigit = true) : isspace c = false := by
  have hb : 48 ≤ c.toNat ∧ c.toNat ≤ 57 := by
    simp only [Char.isDigit, Bool.and_eq_true, decide_eq_true_eq] at h
    exact ⟨UInt32.le_iff_toNat_le.mp h.1, UInt32.le_iff_toNat_le.mp h.2⟩
  simp only [isspace, Bool.or_eq_false_iff, decide_eq_false_iff_not]
  refine ⟨⟨⟨⟨⟨?_, ?_⟩, ?_⟩, ?_⟩, by omega⟩, by omega⟩ <;>
    (rintro rfl; exact absurd hb (by decide))

/-- A digit run is read whole. -/
theorem strtoul_digits {s : List Char} (hne : s ≠ []) (hs : Digits s) :
    strtoul s = some (min (value s) ulongMax, []) := by
  obtain ⟨c, t, rfl⟩ := List.exists_cons_of_ne_nil hne
  have hc : c.isDigit = true := hs c List.mem_cons_self
  have hdrop : (c :: t).dropWhile isspace = c :: t :=
    List.dropWhile_cons_of_neg (by simp [isspace_of_isDigit hc])
  have htake : (c :: t).takeWhile Char.isDigit = c :: t :=
    List.takeWhile_eq_self_iff.mpr hs
  have hrest : (c :: t).dropWhile Char.isDigit = [] :=
    List.dropWhile_eq_nil_iff.mpr hs
  have hminus : c ≠ '-' := by rintro rfl; exact absurd hc (by decide)
  have hplus : c ≠ '+' := by rintro rfl; exact absurd hc (by decide)
  have hsign : optSign (c :: t) = (false, c :: t) := by
    rw [optSign, if_neg hminus, if_neg hplus]
  unfold strtoul
  simp only [hdrop, hsign, htake, hrest]
  rw [if_neg (by simp)]
  congr 2
  split
  · omega
  · rw [if_neg (by simp)]
    omega

end Base.CLib
