import SlurmLite.ParseTime

/-!
# The forms of a time limit

What `time_str2mins` accepts against the forms its comments name: `min`,
`min:sec`, `hr:min:sec`, `days-hr`, `days-hr:min` and `days-hr:min:sec`.

* **The forms**: `TimeForm` holds the digits of each field, so a text of a form
  is one that is well formed. `Means` is the limit a text stands for.
* **No overflow**: `minsChecked` is `time_str2mins` where no `int` overflows.
* **Rejection**: `scanAll_invalid_iff`: a text is invalid because of its first
  part alone (`Rejected`).
* **Forms**: `minsChecked_text` is the number computed for each form.
* **Together**: `time_forms_iff`.
-/

namespace Slurm.ParseTime

open Base.Text Base.CLib

/-- The largest `int`. -/
abbrev intMax : Nat := 2147483647

/-! ## The forms -/

/-- A number as it is written: digits, at least one. -/
structure Number where
  digits : List Char
  nonempty : digits ≠ []
  isNumber : Digits digits

/-- What a number says. -/
def Number.val (n : Number) : Nat := value n.digits

/-- The texts the comments of `time_str2mins` name. -/
inductive TimeForm where
  | min (m : Number)
  | minSec (m s : Number)
  | hrMinSec (h m s : Number)
  | daysHr (d h : Number)
  | daysHrMin (d h m : Number)
  | daysHrMinSec (d h m s : Number)

/-- The text of a form. -/
def TimeForm.text : TimeForm → List Char
  | .min m => m.digits
  | .minSec m s => m.digits ++ ':' :: s.digits
  | .hrMinSec h m s => h.digits ++ ':' :: (m.digits ++ ':' :: s.digits)
  | .daysHr d h => d.digits ++ '-' :: h.digits
  | .daysHrMin d h m => d.digits ++ '-' :: (h.digits ++ ':' :: m.digits)
  | .daysHrMinSec d h m s => d.digits ++ '-' :: (h.digits ++ ':' :: (m.digits ++ ':' :: s.digits))

/-- The whole minutes of a form. -/
def TimeForm.minutes : TimeForm → Nat
  | .min m => m.val
  | .minSec m _ => m.val
  | .hrMinSec h m _ => h.val * 60 + m.val
  | .daysHr d h => (d.val * 24 + h.val) * 60
  | .daysHrMin d h m => (d.val * 24 + h.val) * 60 + m.val
  | .daysHrMinSec d h m _ => (d.val * 24 + h.val) * 60 + m.val

/-- The seconds of a form on top of its minutes. -/
def TimeForm.secs : TimeForm → Nat
  | .minSec _ s | .hrMinSec _ _ s | .daysHrMinSec _ _ _ s => s.val
  | _ => 0

/-- The time a form denotes in minutes, rounded up. -/
def TimeForm.roundedUp (f : TimeForm) : Nat := (f.minutes * 60 + f.secs + 59) / 60

/-- The texts for no limit, in any case. -/
def NoLimit (string : List Char) : Prop :=
  lower string ∈ [lower "-1".toList, lower "INFINITE".toList, lower "UNLIMITED".toList]

instance (string : List Char) : Decidable (NoLimit string) :=
  inferInstanceAs (Decidable (lower string ∈ [_, _, _]))

/-- The result `r` is the limit a text stands for: -1 for none, -2 for text that
has none of the forms. -/
def Means (string : List Char) (r : Int) : Prop :=
  (NoLimit string ∧ r = -1) ∨
    ¬ NoLimit string ∧
      ((∃ f : TimeForm, f.text = string ∧ r = f.roundedUp) ∨
        (¬ ∃ f : TimeForm, f.text = string) ∧ r = -2)

/-! ## Without overflow -/

/-- The loop to the end of the text: `none` where a number overflows,
`some none` where the text is invalid. -/
def scanAll (s : Scan) : List Char → Option (Option Scan)
  | [] => some s.field
  | c :: rest =>
    if c.isDigit = true ∧ intMax < s.tmp * 10 + (c.toNat - 48) then none
    else
      match scanChar s c with
      | none => some none
      | some s => scanAll s rest

/-- The fields set to what is computed with. -/
def Scan.filled (s : Scan) : Scan :=
  let s := if s.days ≠ -1 ∧ s.hr = -1 ∧ s.min ≠ 0 then
      { s with hr := s.min, min := s.sec, sec := 0 } else s
  { s with
    days := if s.days = -1 then 0 else s.days
    hr := if s.hr = -1 then 0 else s.hr
    min := if s.min = -1 then 0 else s.min
    sec := if s.sec = -1 then 0 else s.sec }

/-- The minutes, with the one for the seconds. -/
def Scan.total (s : Scan) : Int :=
  (s.filled.days * 24 + s.filled.hr) * 60 + s.filled.min + if 0 < s.filled.sec then 1 else 0

/-- `time_str2mins` where no `int` overflows. -/
def minsChecked (string : List Char) : Option Int :=
  if string = [] then some (-1)
  else if NoLimit string then some (int32 infinite)
  else
    match scanAll .start string with
    | none => none
    | some none => some (-2)
    | some (some s) => if s.total ≤ intMax then some s.total else none

/-- The fields hold numbers, or -1 where there is none. -/
structure Scan.Read (s : Scan) : Prop where
  days : -1 ≤ s.days
  hr : -1 ≤ s.hr
  min : -1 ≤ s.min
  sec : -1 ≤ s.sec
  tmp : 0 ≤ s.tmp

theorem Scan.Read.field {s s' : Scan} (h : s.Read) (hf : s.field = some s') : s'.Read := by
  obtain ⟨hd, hh, hm, hs, ht⟩ := h
  unfold Scan.field at hf
  split at hf
  · cases hf
    exact ⟨hd, hh, by simp only; omega, hs, Int.le_refl 0⟩
  · split at hf
    · cases hf
      exact ⟨hd, hh, hm, by simp only; omega, Int.le_refl 0⟩
    · split at hf
      · cases hf
        exact ⟨hd, hm, hs, by simp only; omega, Int.le_refl 0⟩
      · cases hf

theorem digit_bounds {c : Char} (hc : c.isDigit = true) : 48 ≤ c.toNat ∧ c.toNat ≤ 57 := by
  simp only [Char.isDigit, Bool.and_eq_true, decide_eq_true_eq] at hc
  exact ⟨UInt32.le_iff_toNat_le.mp hc.1, UInt32.le_iff_toNat_le.mp hc.2⟩

/-- A digit that fits is pushed as it is. -/
theorem pushDigit_of_le {n : Int} {c : Char} (hc : c.isDigit = true) (hn : 0 ≤ n)
    (hle : n * 10 + (c.toNat - 48) ≤ intMax) : pushDigit n c = n * 10 + (c.toNat - 48) := by
  have hbounds := digit_bounds hc
  have hle' : n * 10 + ((c.toNat : Int) - 48) ≤ 2147483647 := hle
  apply int32_of_range <;> omega

theorem Scan.Read.char {s s' : Scan} {c : Char} (h : s.Read)
    (hfit : ¬ (c.isDigit = true ∧ intMax < s.tmp * 10 + (c.toNat - 48)))
    (hc : scanChar s c = some s') : s'.Read := by
  obtain ⟨hd, hh, hm, hs, ht⟩ := h
  unfold scanChar at hc
  split at hc
  · rename_i hdigit
    cases hc
    have hle : s.tmp * 10 + (c.toNat - 48) ≤ intMax := by
      by_contra hnot
      exact hfit ⟨hdigit, by omega⟩
    have hbounds := digit_bounds hdigit
    refine ⟨hd, hh, hm, hs, ?_⟩
    show 0 ≤ pushDigit s.tmp c
    rw [pushDigit_of_le hdigit ht hle]
    omega
  · split at hc
    · split at hc
      · cases hc
      · cases hc
        exact ⟨by simp only; omega, hh, hm, hs, Int.le_refl 0⟩
    · split at hc
      · exact Scan.Read.field ⟨hd, hh, hm, hs, ht⟩ hc
      · cases hc

theorem Scan.Read.all {s s' : Scan} (h : s.Read) {text : List Char}
    (hall : scanAll s text = some (some s')) : s'.Read := by
  induction text generalizing s with
  | nil => exact h.field (Option.some.inj hall)
  | cons c rest ih =>
    rw [scanAll] at hall
    split at hall
    · cases hall
    · rename_i hfit
      cases hc : scanChar s c with
      | none =>
        rw [hc] at hall
        cases hall
      | some s₁ =>
        rw [hc] at hall
        exact ih (h.char hfit hc) hall

theorem read_start : Scan.start.Read :=
  ⟨Int.le_refl _, Int.le_refl _, Int.le_refl _, Int.le_refl _, Int.le_refl _⟩

theorem Scan.Read.filled {s : Scan} (h : s.Read) :
    0 ≤ s.filled.days ∧ 0 ≤ s.filled.hr ∧ 0 ≤ s.filled.min := by
  obtain ⟨hd, hh, hm, hs, -⟩ := h
  by_cases hform : s.days ≠ -1 ∧ s.hr = -1 ∧ s.min ≠ 0
  · simp only [Scan.filled, if_pos hform]
    refine ⟨?_, ?_, ?_⟩ <;> split <;> omega
  · simp only [Scan.filled, if_neg hform]
    refine ⟨?_, ?_, ?_⟩ <;> split <;> omega

theorem Scan.Read.total_nonneg {s : Scan} (h : s.Read) : 0 ≤ s.total := by
  have hfilled := h.filled
  unfold Scan.total
  split <;> omega

/-- The loop and the one that does not look at overflow agree. -/
theorem foldlM_of_scanAll {s : Scan} {text : List Char} {r : Option Scan}
    (h : scanAll s text = some r) : (text.foldlM scanChar s).bind Scan.field = r := by
  induction text generalizing s with
  | nil => exact Option.some.inj h
  | cons c rest ih =>
    rw [scanAll] at h
    split at h
    · cases h
    · cases hc : scanChar s c with
      | none =>
        rw [hc] at h
        obtain rfl := Option.some.inj h
        rw [List.foldlM_cons, hc]
        rfl
      | some s₁ =>
        rw [hc] at h
        rw [List.foldlM_cons, hc]
        exact ih h

theorem mins_of_total {s : Scan} (h : s.Read) (hle : s.total ≤ intMax) : s.mins = s.total := by
  have hnonneg := h.total_nonneg
  have hle' : s.total ≤ 2147483647 := hle
  have hmins : s.mins = if 0 < s.filled.sec
      then int32 (int32 ((s.filled.days * 24 + s.filled.hr) * 60 + s.filled.min) + 1)
      else int32 ((s.filled.days * 24 + s.filled.hr) * 60 + s.filled.min) := rfl
  have hfilled := h.filled
  rw [hmins]
  unfold Scan.total at hle' ⊢
  split
  · rename_i hsec
    rw [if_pos hsec] at hle'
    rw [int32_int32_add]
    exact int32_of_range (by omega) (by omega)
  · rename_i hsec
    rw [if_neg hsec] at hle'
    rw [int32_of_range (by omega) (by omega)]
    omega

/-- Where no `int` overflows this is what the function returns. -/
theorem timeStr2mins_of_checked {string : List Char} {r : Int} (h : minsChecked string = some r) :
    timeStr2mins string = r := by
  unfold minsChecked at h
  unfold timeStr2mins
  split at h
  · rename_i hempty
    rw [if_pos hempty]
    exact Option.some.inj h
  · rename_i hempty
    rw [if_neg hempty]
    split at h
    · rename_i hlimit
      exact (if_pos hlimit).trans (Option.some.inj h)
    · rename_i hlimit
      refine (if_neg hlimit).trans ?_
      split at h
      · cases h
      · rename_i hscan
        rw [foldlM_of_scanAll hscan]
        exact Option.some.inj h
      · rename_i s hscan
        rw [foldlM_of_scanAll hscan]
        obtain ⟨hle, h⟩ := Option.ite_none_right_eq_some.mp h
        exact (mins_of_total (read_start.all hscan) hle).trans (Option.some.inj h)

/-! ## Numbers -/

theorem value_concat (ds : List Char) {c : Char} (hc : c.isDigit = true) :
    ((value (ds ++ [c]) : Nat) : Int) = value ds * 10 + (c.toNat - 48) := by
  have hbounds := digit_bounds hc
  have hone : value [c] = c.toNat - 48 := by simp [value, Nat.ofDigitChars]
  rw [value_append, hone, List.length_singleton, pow_one]
  omega

theorem value_le_append (ds ds' : List Char) : value ds ≤ value (ds ++ ds') := by
  rw [value_append]
  have hpos : 1 ≤ 10 ^ ds'.length := Nat.one_le_pow _ _ (by decide)
  calc value ds = 1 * value ds := (Nat.one_mul _).symm
    _ ≤ 10 ^ ds'.length * value ds := Nat.mul_le_mul_right _ hpos
    _ ≤ 10 ^ ds'.length * value ds + value ds' := Nat.le_add_right _ _

/-- One digit after the digits `pre`. -/
theorem scanAll_digit {s : Scan} {pre : List Char} {c : Char} (hc : c.isDigit = true)
    (htmp : s.tmp = (value pre : Nat)) (rest : List Char) :
    scanAll s (c :: rest) =
      if value (pre ++ [c]) ≤ intMax then scanAll { s with tmp := (value (pre ++ [c]) : Nat) } rest
      else none := by
  have hvalue := value_concat pre hc
  rw [scanAll, htmp, ← hvalue]
  by_cases hle : value (pre ++ [c]) ≤ intMax
  · rw [if_neg (fun h => Nat.not_lt.mpr hle (Int.ofNat_lt.mp h.2)), if_pos hle]
    have hpush : pushDigit s.tmp c = (value (pre ++ [c]) : Nat) := by
      have hfit : s.tmp * 10 + ((c.toNat : Int) - 48) ≤ intMax := by
        rw [htmp, ← hvalue]
        exact Int.ofNat_le.mpr hle
      rw [pushDigit_of_le hc (by omega) hfit, htmp, hvalue]
    have hchar : scanChar s c = some { s with tmp := (value (pre ++ [c]) : Nat) } := by
      rw [scanChar, if_pos hc, hpush]
    rw [hchar]
  · rw [if_pos ⟨hc, Int.ofNat_lt.mpr (Nat.lt_of_not_le hle)⟩, if_neg hle]

/-- Some digits after the digits `pre`. -/
theorem scanAll_digits {s : Scan} {pre ds : List Char} (hd : Digits ds)
    (htmp : s.tmp = (value pre : Nat)) (hpre : value pre ≤ intMax) (rest : List Char) :
    scanAll s (ds ++ rest) =
      if value (pre ++ ds) ≤ intMax then scanAll { s with tmp := (value (pre ++ ds) : Nat) } rest
      else none := by
  induction ds generalizing s pre with
  | nil =>
    rw [List.append_nil, if_pos hpre, ← htmp]
    rfl
  | cons c ds ih =>
    have hsplit : pre ++ c :: ds = pre ++ [c] ++ ds := by simp
    rw [List.cons_append, scanAll_digit (hd c List.mem_cons_self) htmp]
    by_cases hle : value (pre ++ [c]) ≤ intMax
    · rw [if_pos hle, hsplit,
        ih (fun d hd' => hd d (List.mem_cons_of_mem _ hd')) rfl hle]
    · rw [if_neg hle, if_neg]
      intro hle'
      rw [hsplit] at hle'
      exact hle (Nat.le_trans (value_le_append _ _) hle')

theorem scanAll_number {s : Scan} (htmp : s.tmp = 0) (n : Number) (rest : List Char) :
    scanAll s (n.digits ++ rest) =
      if n.val ≤ intMax then scanAll { s with tmp := (n.val : Nat) } rest else none :=
  @scanAll_digits s [] n.digits n.isNumber htmp (Nat.zero_le _) rest

theorem scanAll_last {s : Scan} (htmp : s.tmp = 0) (n : Number) :
    scanAll s n.digits =
      if n.val ≤ intMax then some { s with tmp := (n.val : Nat) }.field else none := by
  have h := scanAll_number htmp n []
  rwa [List.append_nil] at h

theorem scanAll_colon (s : Scan) (rest : List Char) :
    scanAll s (':' :: rest) =
      match s.field with
      | none => some none
      | some s => scanAll s rest := by
  rw [scanAll, if_neg (fun h => absurd h.1 (by decide)), scanChar_colon]

theorem scanAll_dash {s : Scan} (h : s.days = -1) (rest : List Char) :
    scanAll s ('-' :: rest) = scanAll { s with days := s.tmp, tmp := 0 } rest := by
  rw [scanAll, if_neg (fun h => absurd h.1 (by decide)), scanChar_dash h]

/-! ## The number computed for a form -/

/-- The numbers of a form. -/
def TimeForm.numbers : TimeForm → List Number
  | .min m => [m]
  | .minSec m s => [m, s]
  | .hrMinSec h m s => [h, m, s]
  | .daysHr d h => [d, h]
  | .daysHrMin d h m => [d, h, m]
  | .daysHrMinSec d h m s => [d, h, m, s]

/-- The variables when a form has been read. -/
def TimeForm.scan : TimeForm → Scan
  | .min m => ⟨-1, -1, m.val, -1, 0⟩
  | .minSec m s => ⟨-1, -1, m.val, s.val, 0⟩
  | .hrMinSec h m s => ⟨-1, h.val, m.val, s.val, 0⟩
  | .daysHr d h => ⟨d.val, -1, h.val, -1, 0⟩
  | .daysHrMin d h m => ⟨d.val, -1, h.val, m.val, 0⟩
  | .daysHrMinSec d h m s => ⟨d.val, h.val, m.val, s.val, 0⟩

/-- The numbers of a form are all `int`s. -/
def TimeForm.IntNumbers (f : TimeForm) : Prop := ∀ n ∈ f.numbers, n.val ≤ intMax

instance (f : TimeForm) : Decidable f.IntNumbers :=
  inferInstanceAs (Decidable (∀ n ∈ f.numbers, n.val ≤ intMax))

theorem natCast_ne_neg_one (n : Nat) : (n : Int) ≠ -1 := by omega

theorem scanAll_text (f : TimeForm) :
    scanAll .start f.text = if f.IntNumbers then some (some f.scan) else none := by
  have hfield₁ : ∀ d n, Scan.field ⟨d, -1, -1, -1, n⟩ = some ⟨d, -1, n, -1, 0⟩ := fun _ _ => rfl
  have hfield₂ : ∀ (d n : Int) (a : Nat), Scan.field ⟨d, -1, a, -1, n⟩ = some ⟨d, -1, a, n, 0⟩ :=
    fun d n a => by rw [Scan.field, if_neg (natCast_ne_neg_one a), if_pos rfl]
  have hfield₃ : ∀ (d n : Int) (a b : Nat), Scan.field ⟨d, -1, a, b, n⟩ = some ⟨d, a, b, n, 0⟩ :=
    fun d n a b => by
      rw [Scan.field, if_neg (natCast_ne_neg_one a), if_neg (natCast_ne_neg_one b), if_pos rfl]
  cases f with
  | min m =>
    simp only [TimeForm.text, TimeForm.IntNumbers, TimeForm.numbers, TimeForm.scan, Scan.start,
      List.forall_mem_singleton]
    rw [scanAll_last rfl, hfield₁]
  | minSec m s =>
    simp only [TimeForm.text, TimeForm.IntNumbers, TimeForm.numbers, TimeForm.scan, Scan.start,
      List.forall_mem_cons, List.not_mem_nil, false_implies, implies_true, and_true, ite_and]
    rw [scanAll_number rfl]
    simp only [scanAll_colon, hfield₁]
    rw [scanAll_last rfl, hfield₂]
  | hrMinSec h m s =>
    simp only [TimeForm.text, TimeForm.IntNumbers, TimeForm.numbers, TimeForm.scan, Scan.start,
      List.forall_mem_cons, List.not_mem_nil, false_implies, implies_true, and_true, ite_and]
    rw [scanAll_number rfl]
    simp only [scanAll_colon, hfield₁]
    rw [scanAll_number rfl]
    simp only [scanAll_colon, hfield₂]
    rw [scanAll_last rfl, hfield₃]
  | daysHr d h =>
    simp only [TimeForm.text, TimeForm.IntNumbers, TimeForm.numbers, TimeForm.scan, Scan.start,
      List.forall_mem_cons, List.not_mem_nil, false_implies, implies_true, and_true, ite_and]
    rw [scanAll_number rfl, scanAll_dash rfl, scanAll_last rfl, hfield₁]
  | daysHrMin d h m =>
    simp only [TimeForm.text, TimeForm.IntNumbers, TimeForm.numbers, TimeForm.scan, Scan.start,
      List.forall_mem_cons, List.not_mem_nil, false_implies, implies_true, and_true, ite_and]
    rw [scanAll_number rfl, scanAll_dash rfl, scanAll_number rfl]
    simp only [scanAll_colon, hfield₁]
    rw [scanAll_last rfl, hfield₂]
  | daysHrMinSec d h m s =>
    simp only [TimeForm.text, TimeForm.IntNumbers, TimeForm.numbers, TimeForm.scan, Scan.start,
      List.forall_mem_cons, List.not_mem_nil, false_implies, implies_true, and_true, ite_and]
    rw [scanAll_number rfl, scanAll_dash rfl, scanAll_number rfl]
    simp only [scanAll_colon, hfield₁]
    rw [scanAll_number rfl]
    simp only [scanAll_colon, hfield₂]
    rw [scanAll_last rfl, hfield₃]

/-- What is computed for a form: one minute for any number of seconds, and the
minutes of `days-hr:min` taken for seconds where there are no hours. -/
def TimeForm.computed : TimeForm → Nat
  | .daysHrMin d h m =>
    if h.val = 0 then d.val * 24 * 60 + (if 0 < m.val then 1 else 0)
    else (d.val * 24 + h.val) * 60 + m.val
  | f => f.minutes + if 0 < f.secs then 1 else 0

theorem total_scan (f : TimeForm) : f.scan.total = f.computed := by
  cases f <;>
    simp only [TimeForm.scan, TimeForm.computed, TimeForm.minutes, TimeForm.secs, Scan.total,
      Scan.filled] <;>
    grind

/-- The forms computed right but for overflow. -/
def TimeForm.Exact (f : TimeForm) : Prop :=
  f.secs ≤ 60 ∧
    match f with
    | .daysHrMin _ h m => h.val ≠ 0 ∨ m.val ≤ 1
    | _ => True

theorem computed_eq_iff (f : TimeForm) : f.computed = f.roundedUp ↔ f.Exact := by
  cases f <;>
    simp only [TimeForm.computed, TimeForm.roundedUp, TimeForm.Exact, TimeForm.minutes,
      TimeForm.secs] <;>
    grind

theorem intNumbers_of_exact {f : TimeForm} (h : f.Exact) (hle : f.roundedUp ≤ intMax) :
    f.IntNumbers := by
  have hle' : f.roundedUp ≤ 2147483647 := hle
  have hexact := h.1
  cases f <;>
    simp only [TimeForm.roundedUp, TimeForm.minutes, TimeForm.secs, TimeForm.IntNumbers,
      TimeForm.numbers, List.forall_mem_cons, List.not_mem_nil, false_implies, implies_true,
      and_true] at hle' hexact ⊢ <;>
    grind

/-- What the function does with the text of a form. -/
theorem minsChecked_text (f : TimeForm) :
    minsChecked f.text =
      if f.IntNumbers ∧ f.computed ≤ intMax then some (f.computed : Int) else none := by
  have hhead : ∃ c rest, f.text = c :: rest ∧ c.isDigit = true := by
    have hnumber : ∀ (n : Number) (t : List Char), ∃ c rest, n.digits ++ t = c :: rest ∧
        c.isDigit = true := by
      intro n t
      obtain ⟨c, ds, hds⟩ := List.exists_cons_of_ne_nil n.nonempty
      exact ⟨c, ds ++ t, by rw [hds]; rfl, n.isNumber c (by rw [hds]; exact List.mem_cons_self)⟩
    cases f with
    | min m => simpa [TimeForm.text] using hnumber m []
    | _ => exact hnumber _ _
  obtain ⟨c, rest, htext, hc⟩ := hhead
  have hne : f.text ≠ [] := by
    rw [htext]
    exact List.cons_ne_nil c rest
  have hlimit : ¬ NoLimit f.text := by
    rw [htext]
    exact lower_ne_of_digit hc rest
  rw [minsChecked, if_neg hne, if_neg hlimit, scanAll_text]
  by_cases hint : f.IntNumbers
  · rw [if_pos hint]
    simp only [total_scan, hint, true_and, Int.ofNat_le]
  · rw [if_neg hint, if_neg (fun h => hint h.1)]

/-! ## Rejection -/

/-- The numbers in a part of the text fit an `int`. -/
def RunsFit (p : List Char) : Prop :=
  ∀ a ds b, p = a ++ (ds ++ b) → Digits ds → value ds ≤ intMax

/-- What comes after the part `p` of the text makes it invalid: a fourth field
ends, there is a second `-`, or a character that is in no form. -/
def Ends (p : List Char) : List Char → Prop
  | [] => 3 ≤ p.count ':'
  | c :: _ =>
    c.isDigit = false ∧
      ((c = '-' ∧ '-' ∈ p) ∨ (c = ':' ∧ 3 ≤ p.count ':') ∨ (c ≠ '-' ∧ c ≠ ':'))

/-- A part of the text makes it invalid before a number overflows. -/
def Rejected (string : List Char) : Prop :=
  ∃ p rest, string = p ++ rest ∧ RunsFit p ∧ Ends p rest

/-- The fields that are read after some `:`. -/
def Scan.Filled (s : Scan) (colons : Nat) : Prop :=
  match colons with
  | 0 => s.min = -1 ∧ s.sec = -1 ∧ s.hr = -1
  | 1 => 0 ≤ s.min ∧ s.sec = -1 ∧ s.hr = -1
  | 2 => 0 ≤ s.min ∧ 0 ≤ s.sec ∧ s.hr = -1
  | 3 => 0 ≤ s.min ∧ 0 ≤ s.sec ∧ 0 ≤ s.hr
  | _ => False

/-- The state of the loop after the part `p` of the text. -/
structure After (p : List Char) (s : Scan) : Prop where
  fit : RunsFit p
  tmp : s.tmp = (value (tail p) : Nat)
  filled : s.Filled (p.count ':')
  days : if '-' ∈ p then 0 ≤ s.days else s.days = -1

theorem tail_concat_digit (p : List Char) {c : Char} (hc : c.isDigit = true) :
    tail (p ++ [c]) = tail p ++ [c] := List.rtakeWhile_concat_pos _ _ _ hc

theorem tail_concat_other (p : List Char) {c : Char} (hc : c.isDigit = false) :
    tail (p ++ [c]) = [] := List.rtakeWhile_concat_neg _ _ _ (by rw [hc]; exact Bool.false_ne_true)

/-- Digits at the end are part of the last number. -/
theorem value_le_tail {a ds : List Char} (hd : Digits ds) : value ds ≤ value (tail (a ++ ds)) := by
  rw [tail_append_digits hd, value_append]
  exact Nat.le_add_left _ _

theorem runsFit_concat {p : List Char} (h : RunsFit p) {c : Char}
    (hlast : c.isDigit = true → value (tail (p ++ [c])) ≤ intMax) : RunsFit (p ++ [c]) := by
  intro a ds b heq hd
  obtain rfl | ⟨b', x, rfl⟩ := List.eq_nil_or_concat b
  · obtain rfl | ⟨ds', x, rfl⟩ := List.eq_nil_or_concat ds
    · exact Nat.zero_le _
    · -- a number up to the end
      rw [List.append_nil] at heq
      have hcx : c = x := by
        have hrev := congrArg List.getLast? heq
        simpa using hrev
      have hc : c.isDigit = true := hcx ▸ hd x (by simp)
      exact Nat.le_trans (value_le_tail hd) (heq ▸ hlast hc)
  · rw [List.concat_eq_append, ← List.append_assoc, ← List.append_assoc] at heq
    have hp : p = a ++ ds ++ b' := List.append_inj_left' heq rfl
    rw [List.append_assoc] at hp
    exact h a ds b' hp hd

/-- The branch for `:` fails after three of them, and fills one more field
otherwise. -/
theorem Scan.Filled.field {s : Scan} {n : Nat} (h : s.Filled n) (htmp : 0 ≤ s.tmp) :
    (s.field = none ↔ 3 ≤ n) ∧
      ∀ s', s.field = some s' → s'.Filled (n + 1) ∧ s'.tmp = 0 ∧ s'.days = s.days := by
  match n, h with
  | 0, ⟨hm, hs, hh⟩ =>
    rw [Scan.field, if_pos hm]
    refine ⟨by simp, ?_⟩
    rintro s' ⟨⟩
    exact ⟨⟨htmp, hs, hh⟩, rfl, rfl⟩
  | 1, ⟨hm, hs, hh⟩ =>
    rw [Scan.field, if_neg (by omega), if_pos hs]
    refine ⟨by simp, ?_⟩
    rintro s' ⟨⟩
    exact ⟨⟨hm, htmp, hh⟩, rfl, rfl⟩
  | 2, ⟨hm, hs, hh⟩ =>
    rw [Scan.field, if_neg (by omega), if_neg (by omega), if_pos hh]
    refine ⟨by simp, ?_⟩
    rintro s' ⟨⟩
    exact ⟨⟨hs, htmp, hm⟩, rfl, rfl⟩
  | 3, ⟨hm, hs, hh⟩ =>
    rw [Scan.field, if_neg (by omega), if_neg (by omega), if_neg (by omega)]
    exact ⟨by simp, fun s' h => by cases h⟩

theorem After.tmp_nonneg {p : List Char} {s : Scan} (h : After p s) : 0 ≤ s.tmp := by
  rw [h.tmp]
  exact Int.natCast_nonneg _

theorem After.digit {p : List Char} {s : Scan} (h : After p s) {c : Char} (hc : c.isDigit = true)
    (hle : value (tail p ++ [c]) ≤ intMax) :
    After (p ++ [c]) { s with tmp := (value (tail p ++ [c]) : Nat) } := by
  have hcolon : c ≠ ':' := by
    rintro rfl
    cases hc
  have hdash : c ≠ '-' := by
    rintro rfl
    cases hc
  refine ⟨runsFit_concat h.fit fun _ => ?_, ?_, ?_, ?_⟩
  · rwa [tail_concat_digit p hc]
  · rw [tail_concat_digit p hc]
  · rw [List.count_append, List.count_singleton, beq_false_of_ne hcolon]
    exact h.filled
  · have hmem : '-' ∈ p ++ [c] ↔ '-' ∈ p := by
      simp [hdash.symm]
    simp only [hmem]
    exact h.days

theorem After.dash {p : List Char} {s : Scan} (h : After p s) :
    After (p ++ ['-']) { s with days := s.tmp, tmp := 0 } := by
  refine ⟨runsFit_concat h.fit (fun h => by cases h), ?_, ?_, ?_⟩
  · rw [tail_concat_other p rfl]
    rfl
  · rw [List.count_append, List.count_singleton]
    exact h.filled
  · rw [if_pos (by simp)]
    exact h.tmp_nonneg

theorem After.colon {p : List Char} {s s' : Scan} (h : After p s) (hf : s.field = some s') :
    After (p ++ [':']) s' := by
  obtain ⟨hfilled, htmp, hdays⟩ := (h.filled.field h.tmp_nonneg).2 s' hf
  refine ⟨runsFit_concat h.fit (fun h => by cases h), ?_, ?_, ?_⟩
  · rw [tail_concat_other p rfl, htmp]
    rfl
  · rw [List.count_append, List.count_singleton]
    exact hfilled
  · have hmem : '-' ∈ p ++ [':'] ↔ '-' ∈ p := by
      simp
    simp only [hmem, hdays]
    exact h.days

theorem after_start : After [] .start := by
  refine ⟨?_, rfl, ⟨rfl, rfl, rfl⟩, rfl⟩
  intro a ds b heq _
  have hds : ds = [] := by
    have := List.append_eq_nil_iff.mp heq.symm
    exact (List.append_eq_nil_iff.mp this.2).1
  rw [hds]
  exact Nat.zero_le _

/-- What is left of the text makes it invalid. -/
def RejectedFrom (p text : List Char) : Prop :=
  ∃ q rest, text = q ++ rest ∧ RunsFit (p ++ q) ∧ Ends (p ++ q) rest

theorem rejectedFrom_now {p text : List Char} (hfit : RunsFit p) (h : Ends p text) :
    RejectedFrom p text :=
  ⟨[], text, rfl, by rwa [List.append_nil], by rwa [List.append_nil]⟩

/-- A character that does not make the text invalid is passed. -/
theorem rejectedFrom_cons {p : List Char} {c : Char} {rest : List Char}
    (h : ¬ Ends p (c :: rest)) : RejectedFrom p (c :: rest) ↔ RejectedFrom (p ++ [c]) rest := by
  constructor
  · rintro ⟨q, rest', heq, hfit, hends⟩
    cases q with
    | nil =>
      rw [List.append_nil] at hends
      rw [List.nil_append] at heq
      exact absurd (heq ▸ hends) h
    | cons d q =>
      obtain ⟨rfl, rfl⟩ := List.cons.inj heq
      have hassoc : p ++ c :: q = p ++ [c] ++ q := by simp
      exact ⟨q, rest', rfl, hassoc ▸ hfit, hassoc ▸ hends⟩
  · rintro ⟨q, rest', rfl, hfit, hends⟩
    have hassoc : p ++ c :: q = p ++ [c] ++ q := by simp
    exact ⟨c :: q, rest', rfl, hassoc ▸ hfit, hassoc ▸ hends⟩

/-- The loop finds the text invalid where a part of what is left makes it so
before a number overflows. -/
theorem scanAll_invalid_from {p text : List Char} {s : Scan} (h : After p s) :
    scanAll s text = some none ↔ RejectedFrom p text := by
  induction text generalizing p s with
  | nil =>
    have hfield := (h.filled.field h.tmp_nonneg).1
    rw [scanAll, Option.some.injEq, hfield]
    constructor
    · exact fun hcount => rejectedFrom_now h.fit hcount
    · rintro ⟨q, rest, heq, -, hends⟩
      obtain ⟨rfl, rfl⟩ := List.append_eq_nil_iff.mp heq.symm
      rwa [List.append_nil] at hends
  | cons c rest ih =>
    by_cases hdigit : c.isDigit = true
    · have hnot : ¬ Ends p (c :: rest) := by
        rintro ⟨hd, -⟩
        rw [hdigit] at hd
        cases hd
      rw [scanAll_digit hdigit h.tmp, rejectedFrom_cons hnot]
      by_cases hle : value (tail p ++ [c]) ≤ intMax
      · rw [if_pos hle]
        exact ih (h.digit hdigit hle)
      · rw [if_neg hle]
        -- the number that overflows stays in every longer part
        refine iff_of_false (fun h => by cases h) ?_
        rintro ⟨q, rest', -, hfit, -⟩
        apply hle
        have hd : Digits (tail p ++ [c]) := (digits_tail p).append fun d hd' => by
          rw [List.mem_singleton.mp hd']
          exact hdigit
        refine hfit (stem p) (tail p ++ [c]) q ?_ hd
        rw [← List.append_assoc, ← List.append_assoc, stem_append_tail]
    · have hdigit' : c.isDigit = false := by simpa using hdigit
      by_cases hdash : c = '-'
      · subst hdash
        by_cases hmem : '-' ∈ p
        · have hends : Ends p ('-' :: rest) := ⟨rfl, Or.inl ⟨rfl, hmem⟩⟩
          have hdays := h.days
          rw [if_pos hmem] at hdays
          have hchar : scanChar s '-' = none := by
            rw [scanChar, if_neg (by decide), if_pos rfl, if_pos (by omega)]
          rw [scanAll, if_neg (fun h => hdigit h.1), hchar]
          exact iff_of_true rfl (rejectedFrom_now h.fit hends)
        · have hnot : ¬ Ends p ('-' :: rest) := by
            rintro ⟨-, ⟨-, hin⟩ | ⟨hne, -⟩ | ⟨hne, -⟩⟩
            · exact hmem hin
            · exact absurd hne (by decide)
            · exact hne rfl
          have hdays := h.days
          rw [if_neg hmem] at hdays
          rw [scanAll_dash hdays, rejectedFrom_cons hnot]
          exact ih h.dash
      · by_cases hcolon : c = ':'
        · subst hcolon
          have hfield := (h.filled.field h.tmp_nonneg).1
          rw [scanAll_colon]
          cases hf : s.field with
          | none =>
            have hcount := hfield.mp hf
            have hends : Ends p (':' :: rest) := ⟨rfl, Or.inr (Or.inl ⟨rfl, hcount⟩)⟩
            exact iff_of_true rfl (rejectedFrom_now h.fit hends)
          | some s' =>
            have hnot : ¬ Ends p (':' :: rest) := by
              rintro ⟨-, ⟨hne, -⟩ | ⟨-, hcount⟩ | ⟨-, hne⟩⟩
              · exact absurd hne (by decide)
              · rw [hfield.mpr hcount] at hf
                cases hf
              · exact hne rfl
            rw [rejectedFrom_cons hnot]
            exact ih (h.colon hf)
        · have hends : Ends p (c :: rest) := ⟨hdigit', Or.inr (Or.inr ⟨hdash, hcolon⟩)⟩
          have hchar : scanChar s c = none := by
            rw [scanChar, if_neg hdigit, if_neg hdash, if_neg hcolon]
          rw [scanAll, if_neg (fun h => hdigit h.1), hchar]
          exact iff_of_true rfl (rejectedFrom_now h.fit hends)

theorem scanAll_invalid_iff (string : List Char) :
    scanAll .start string = some none ↔ Rejected string := scanAll_invalid_from after_start

/-! ## The forms and the rest -/

/-- `time_str2mins` returns what the text stands for, and no `int` overflows. -/
def TimeRight (string : List Char) : Prop := ∃ r, minsChecked string = some r ∧ Means string r

theorem not_noLimit_nil : ¬ NoLimit [] := by decide

theorem text_ne_nil (f : TimeForm) : f.text ≠ [] := by
  cases f with
  | min m => exact m.nonempty
  | _ => exact List.append_ne_nil_of_right_ne_nil _ (List.cons_ne_nil _ _)

/-- The result is right for the texts for no limit, for those found invalid, and
for those of a form with at most 60 seconds and a result that fits, which
`days-hr:min` needs hours for. -/
theorem time_forms_iff (string : List Char) :
    TimeRight string ↔ NoLimit string ∨
      string ≠ [] ∧
        (Rejected string ∨ ∃ f : TimeForm, f.text = string ∧ f.Exact ∧ f.roundedUp ≤ intMax) := by
  by_cases hlimit : NoLimit string
  · refine iff_of_true ⟨-1, ?_, Or.inl ⟨hlimit, rfl⟩⟩ (Or.inl hlimit)
    have hne : string ≠ [] := by
      rintro rfl
      exact not_noLimit_nil hlimit
    rw [minsChecked, if_neg hne, if_pos hlimit]
    rfl
  · rw [or_iff_right hlimit]
    constructor
    · rintro ⟨r, hr, ⟨h, -⟩ | ⟨-, hmeans⟩⟩
      · exact absurd h hlimit
      · obtain ⟨f, rfl, hup⟩ | ⟨hform, rfl⟩ := hmeans
        · rw [minsChecked_text, Option.ite_none_right_eq_some] at hr
          obtain ⟨⟨-, hle⟩, hcomputed⟩ := hr
          have heq : f.computed = f.roundedUp :=
            Int.ofNat_inj.mp ((Option.some.inj hcomputed).trans hup)
          exact ⟨text_ne_nil f, Or.inr ⟨f, rfl, (computed_eq_iff f).mp heq, heq ▸ hle⟩⟩
        · -- only invalid text gives -2
          unfold minsChecked at hr
          split at hr
          · cases hr
          · rename_i hne
            split at hr
            · cases hr
            · rename_i hscan
              exact ⟨hne, Or.inl ((scanAll_invalid_iff string).mp hscan)⟩
            · rename_i s hscan
              obtain ⟨-, hr⟩ := Option.ite_none_right_eq_some.mp hr
              have hnonneg := (read_start.all hscan).total_nonneg
              have htotal := Option.some.inj hr
              omega
    · rintro ⟨hne, hrejected | ⟨f, rfl, hexact, hle⟩⟩
      · have hscan := (scanAll_invalid_iff string).mpr hrejected
        refine ⟨-2, ?_, Or.inr ⟨hlimit, Or.inr ⟨?_, rfl⟩⟩⟩
        · rw [minsChecked, if_neg hne, if_neg hlimit, hscan]
        · rintro ⟨f, rfl⟩
          rw [scanAll_text] at hscan
          split at hscan
          · cases hscan
          · cases hscan
      · have heq := (computed_eq_iff f).mpr hexact
        refine ⟨f.roundedUp, ?_, Or.inr ⟨hlimit, Or.inl ⟨f, rfl, rfl⟩⟩⟩
        rw [minsChecked_text, heq, if_pos ⟨intNumbers_of_exact hexact hle, hle⟩]

/-- A number ends where the digits do. -/
theorem Number.split {n : Number} {ds rest rest' : List Char} {sep : Char}
    (h : n.digits ++ rest = ds ++ sep :: rest') (hd : Digits ds) (hsep : sep.isDigit = false)
    (hrest : rest.head?.any Char.isDigit = false) : n.digits = ds ∧ rest = sep :: rest' := by
  have hstop : ∀ t : List Char, t.head?.any Char.isDigit = false →
      t.takeWhile Char.isDigit = [] ∧ t.dropWhile Char.isDigit = t := by
    intro t ht
    cases t with
    | nil => exact ⟨rfl, rfl⟩
    | cons c t =>
      have hc : c.isDigit = false := ht
      exact ⟨List.takeWhile_cons_of_neg (by simp [hc]), List.dropWhile_cons_of_neg (by simp [hc])⟩
  obtain ⟨htake, hdrop⟩ := hstop rest hrest
  obtain ⟨htake', hdrop'⟩ := hstop (sep :: rest') hsep
  have hfirst := congrArg (List.takeWhile Char.isDigit) h
  have hlast := congrArg (List.dropWhile Char.isDigit) h
  rw [List.takeWhile_append_of_pos n.isNumber, List.takeWhile_append_of_pos hd, htake, htake',
    List.append_nil, List.append_nil] at hfirst
  rw [List.dropWhile_append_of_pos n.isNumber, List.dropWhile_append_of_pos hd, hdrop,
    hdrop'] at hlast
  exact ⟨hfirst, hlast⟩

/-- The one form of a day and thirty minutes. -/
theorem roundedUp_day {f : TimeForm} (h : f.text = "1-0:30".toList) : f.roundedUp = 1470 := by
  have hdash : '-' ∈ f.text := by
    rw [h]
    decide
  have hday : ∀ {n : Number} {rest : List Char}, n.digits ++ rest = "1-0:30".toList →
      rest.head?.any Char.isDigit = false → n.digits = ['1'] ∧ rest = "-0:30".toList := by
    intro n rest heq hrest
    exact @Number.split n ['1'] rest "0:30".toList '-' heq (by simp [Digits]) rfl hrest
  have hhour : ∀ {n : Number} {rest : List Char}, n.digits ++ rest = "0:30".toList →
      rest.head?.any Char.isDigit = false → n.digits = ['0'] ∧ rest = ":30".toList := by
    intro n rest heq hrest
    exact @Number.split n ['0'] rest "30".toList ':' heq (by simp [Digits]) rfl hrest
  cases f with
  | min m =>
    have hdigit := m.isNumber '-' hdash
    cases hdigit
  | minSec m s => cases (hday h rfl).2
  | hrMinSec hr m s => cases (hday h rfl).2
  | daysHr d hr =>
    obtain ⟨-, hrest⟩ := hday h rfl
    obtain ⟨-, hempty⟩ := @hhour hr [] ((List.append_nil _).trans (List.cons.inj hrest).2) rfl
    cases hempty
  | daysHrMin d hr m =>
    obtain ⟨hd, hrest⟩ := hday h rfl
    obtain ⟨hhr, hrest⟩ := hhour (List.cons.inj hrest).2 rfl
    have hm := (List.cons.inj hrest).2
    simp only [TimeForm.roundedUp, TimeForm.minutes, TimeForm.secs, Number.val, hd, hhr, hm]
    decide
  | daysHrMinSec d hr m s =>
    obtain ⟨-, hrest⟩ := hday h rfl
    obtain ⟨-, hrest⟩ := hhour (List.cons.inj hrest).2 rfl
    have htail : m.digits ++ ':' :: s.digits = "30".toList := (List.cons.inj hrest).2
    have hcolon : ':' ∈ "30".toList := by
      rw [← htail]
      exact List.mem_append_right _ List.mem_cons_self
    exact absurd hcolon (by decide)

/-- A day and thirty minutes is taken for a day and thirty seconds. -/
theorem not_time_forms_day : ¬ TimeRight "1-0:30".toList := by
  rintro ⟨r, hr, hmeans⟩
  have hcode : minsChecked "1-0:30".toList = some 1441 := by decide
  have hval : r = 1441 := Option.some.inj (hr.symm.trans hcode)
  obtain ⟨hlimit, -⟩ | ⟨-, ⟨f, hf, hup⟩ | ⟨-, herror⟩⟩ := hmeans
  · exact absurd hlimit (by decide)
  · rw [roundedUp_day hf] at hup
    omega
  · omega

end Slurm.ParseTime
