import Mathlib

/-!
# Decimal text

Numbers as printed text and back: the decimal text of a number, the
zero-padded text `padded w n` (what `printf("%0*lu", w, n)` writes), and the
value a run of digits denotes.

* **Lengths**: `length_padded` and `ndigits_mono` are the two facts every
  width argument rests on.
* **Round trip**: `value_padded` reads a padded number back, and
  `padded_value` prints a digit run back unchanged.
* **Widths**: `padded_eq_padded_iff`: two widths print a number alike exactly
  when they leave it the same length.
* **Trailing digits**: a text splits in one way into a stem that does not end
  in a digit and the run of digits after it (`stem_append_of_endsPlain`,
  `tail_append_of_endsPlain`).
* **Separators**: `intercalate_append_singleton`: one more text behind others.
-/

namespace Base.Text

/-- The decimal text of `n`. -/
def decimal (n : Nat) : List Char := Nat.toDigits 10 n

/-- The number of decimal digits of `n`. -/
def ndigits (n : Nat) : Nat := (decimal n).length

/-- `n` printed with at least `w` characters, zeros in front. -/
def padded (w n : Nat) : List Char :=
  List.replicate (w - ndigits n) '0' ++ decimal n

/-- The number a run of decimal digits denotes. -/
def value (s : List Char) : Nat := Nat.ofDigitChars 10 s 0

/-- A text made of decimal digits only. -/
def Digits (s : List Char) : Prop := ∀ c ∈ s, c.isDigit = true

/-! ## Lengths -/

theorem decimal_ne_nil (n : Nat) : decimal n ≠ [] := Nat.toDigits_ne_nil

theorem ndigits_pos (n : Nat) : 0 < ndigits n := Nat.length_toDigits_pos

theorem ndigits_le_iff {n k : Nat} (hk : 0 < k) : ndigits n ≤ k ↔ n < 10 ^ k :=
  Nat.length_toDigits_le_iff (by omega) hk

theorem ndigits_mono {m n : Nat} (h : m ≤ n) : ndigits m ≤ ndigits n := by
  have hn : n < 10 ^ ndigits n := (ndigits_le_iff (ndigits_pos n)).mp (Nat.le_refl _)
  exact (ndigits_le_iff (ndigits_pos n)).mpr (by omega)

@[simp] theorem length_padded (w n : Nat) : (padded w n).length = max w (ndigits n) := by
  simp only [padded, List.length_append, List.length_replicate]
  show w - ndigits n + ndigits n = max w (ndigits n)
  omega

theorem padded_ne_nil (w n : Nat) : padded w n ≠ [] := by
  intro h
  have := congrArg List.length h
  have := ndigits_pos n
  simp only [length_padded, List.length_nil] at *
  omega

/-! ## Digits -/

theorem digits_decimal (n : Nat) : Digits (decimal n) :=
  fun _ hc => Nat.isDigit_of_mem_toDigits (by omega) (by omega) hc

theorem digits_padded (w n : Nat) : Digits (padded w n) := by
  intro c hc
  rcases List.mem_append.mp hc with hc | hc
  · rw [List.eq_of_mem_replicate hc]
    decide
  · exact digits_decimal n c hc

theorem Digits.append {s t : List Char} (hs : Digits s) (ht : Digits t) :
    Digits (s ++ t) := by
  intro c hc
  rcases List.mem_append.mp hc with hc | hc
  · exact hs c hc
  · exact ht c hc

/-! ## Values -/

theorem value_append (s t : List Char) :
    value (s ++ t) = 10 ^ t.length * value s + value t := by
  rw [value, Nat.ofDigitChars_append, Nat.ofDigitChars_eq_ofDigitChars_zero]
  rfl

@[simp] theorem value_decimal (n : Nat) : value (decimal n) = n :=
  Nat.ofDigitChars_ten_toDigits

@[simp] theorem value_padded (w n : Nat) : value (padded w n) = n := by
  rw [padded, value_append, value_decimal]
  have hz : value (List.replicate (w - ndigits n) '0') = 0 := by
    simp [value, Nat.ofDigitChars_replicate_zero]
  rw [hz]
  omega

/-- Equal padded texts print equal numbers. -/
theorem padded_inj {w w' m n : Nat} (h : padded w m = padded w' n) : m = n := by
  have := congrArg value h
  simpa using this

/-- Two widths print `n` alike exactly when they leave it the same length. -/
theorem padded_eq_padded_iff {w w' n : Nat} :
    padded w n = padded w' n ↔ max w (ndigits n) = max w' (ndigits n) := by
  constructor
  · intro h
    have := congrArg List.length h
    simpa using this
  · intro h
    have hw : w - ndigits n = w' - ndigits n := by omega
    rw [padded, padded, hw]

/-- A width that is neutral at `n` is neutral at every larger number. -/
theorem padded_eq_padded_of_le {w w' m n : Nat} (hmn : m ≤ n)
    (h : padded w m = padded w' m) : padded w n = padded w' n := by
  rw [padded_eq_padded_iff] at *
  have := ndigits_mono hmn
  omega

/-- Printing with the width of the number's own text changes nothing. -/
theorem padded_length_padded (w m n : Nat) (hmn : m ≤ n) :
    padded (padded w m).length n = padded w n := by
  rw [padded_eq_padded_iff, length_padded]
  have := ndigits_mono hmn
  omega

theorem decimal_ten_mul_add {a d : Nat} (ha : 0 < a) (hd : d < 10) :
    decimal (10 * a + d) = decimal a ++ decimal d :=
  (Nat.toDigits_append_toDigits (by omega) ha hd).symm

/-- Appending one digit to a padded text. -/
theorem padded_succ {w a d : Nat} (hw : 0 < w) (hd : d < 10) :
    padded (w + 1) (10 * a + d) = padded w a ++ decimal d := by
  have hd1 : ndigits d = 1 := by
    have := ndigits_pos d
    have := (ndigits_le_iff (n := d) (k := 1) (by omega)).mpr (by omega)
    omega
  rcases Nat.eq_zero_or_pos a with rfl | ha
  · have h0 : decimal 0 = ['0'] := rfl
    have h01 : ndigits 0 = 1 := rfl
    have hrep : List.replicate w '0' = List.replicate (w - 1) '0' ++ ['0'] := by
      rw [show w = (w - 1) + 1 by omega, List.replicate_succ']
      simp
    simp only [padded, Nat.mul_zero, Nat.zero_add, hd1, h01, h0, Nat.add_sub_cancel]
    rw [hrep]
  · have hlen : ndigits (10 * a + d) = ndigits a + 1 := by
      have := congrArg List.length (decimal_ten_mul_add ha hd)
      rw [List.length_append] at this
      exact this.trans (by rw [show (decimal d).length = ndigits d from rfl, hd1]; rfl)
    rw [padded, padded, hlen, decimal_ten_mul_add ha hd, List.append_assoc]
    congr 2
    omega

theorem digit_value {c : Char} (hc : c.isDigit = true) :
    value [c] < 10 ∧ decimal (value [c]) = [c] := by
  have hv : value [c] = c.toNat - 48 := by simp [value, Nat.ofDigitChars]
  have hb : 48 ≤ c.toNat ∧ c.toNat ≤ 57 := by
    simp only [Char.isDigit, Bool.and_eq_true, decide_eq_true_eq] at hc
    exact ⟨UInt32.le_iff_toNat_le.mp hc.1, UInt32.le_iff_toNat_le.mp hc.2⟩
  have hlt : value [c] < 10 := by omega
  refine ⟨hlt, ?_⟩
  rw [decimal, Nat.toDigits_of_lt_base hlt, hv]
  obtain ⟨k, hk⟩ : ∃ k, c.toNat = 48 + k := ⟨c.toNat - 48, by omega⟩
  have hchar : c = Char.ofNat (48 + k) := by rw [← hk, Char.ofNat_toNat]
  have hk10 : k < 10 := by omega
  rw [hk, hchar]
  interval_cases k <;> rfl

/-- A digit run prints back unchanged from its value and its length. -/
theorem padded_value {s : List Char} (hne : s ≠ []) (hs : Digits s) :
    padded s.length (value s) = s := by
  induction s using List.reverseRecOn with
  | nil => exact absurd rfl hne
  | append_singleton t c ih =>
    have hc : c.isDigit = true := hs c (by simp)
    obtain ⟨hlt, hdec⟩ := digit_value hc
    have hval : value (t ++ [c]) = 10 * value t + value [c] := by
      rw [value_append]
      simp
    by_cases hnil : t = []
    · subst hnil
      have hone : ndigits (value [c]) = 1 := by rw [ndigits, hdec]; rfl
      rw [List.nil_append, List.length_singleton, padded, hdec, hone]
      rfl
    · have hpos : 0 < t.length := List.length_pos_iff.mpr hnil
      have ht : Digits t := fun y hy => hs y (List.mem_append_left _ hy)
      rw [List.length_append, List.length_singleton, hval,
        padded_succ hpos hlt, hdec, ih hnil ht]

/-! ## Trailing digits -/

/-- The text before the trailing digits. -/
def stem (s : List Char) : List Char := s.rdropWhile Char.isDigit

/-- The trailing digits. -/
def tail (s : List Char) : List Char := s.rtakeWhile Char.isDigit

/-- A text whose last character is not a digit (or that is empty). -/
def EndsPlain (s : List Char) : Prop := stem s = s

instance (s : List Char) : Decidable (EndsPlain s) :=
  inferInstanceAs (Decidable (_ = _))

@[simp] theorem stem_append_tail (s : List Char) : stem s ++ tail s = s := by
  rw [stem, tail, List.rdropWhile, List.rtakeWhile, ← List.reverse_append,
    List.takeWhile_append_dropWhile, List.reverse_reverse]

theorem digits_tail (s : List Char) : Digits (tail s) := by
  intro c hc
  rw [tail, List.rtakeWhile, List.mem_reverse] at hc
  exact List.mem_takeWhile_imp hc

theorem stem_append_digits {s t : List Char} (ht : Digits t) :
    stem (s ++ t) = stem s := by
  rw [stem, stem, List.rdropWhile, List.rdropWhile, List.reverse_append]
  rw [List.dropWhile_append_of_pos (fun c hc => ht c (List.mem_reverse.mp hc))]

theorem endsPlain_stem (s : List Char) : EndsPlain (stem s) := by
  have h := stem_append_digits (s := stem s) (digits_tail s)
  rw [stem_append_tail] at h
  exact h.symm

theorem endsPlain_iff_tail {s : List Char} : EndsPlain s ↔ tail s = [] := by
  constructor
  · intro h
    have := stem_append_tail s
    rw [h] at this
    simpa using this
  · intro h
    have := stem_append_tail s
    rw [h, List.append_nil] at this
    exact this

theorem stem_append_of_endsPlain {p t : List Char} (hp : EndsPlain p) (ht : Digits t) :
    stem (p ++ t) = p := (stem_append_digits ht).trans hp

theorem tail_append_of_endsPlain {p t : List Char} (hp : EndsPlain p) (ht : Digits t) :
    tail (p ++ t) = t := by
  have h := stem_append_tail (p ++ t)
  rw [stem_append_of_endsPlain hp ht] at h
  exact List.append_cancel_left h

/-- The trailing digits of `p ++ t` when `t` is made of digits. -/
theorem tail_append_digits {p t : List Char} (ht : Digits t) :
    tail (p ++ t) = tail p ++ t := by
  have hsplit : p ++ t = stem p ++ (tail p ++ t) := by
    rw [← List.append_assoc, stem_append_tail]
  rw [hsplit]
  exact tail_append_of_endsPlain (endsPlain_stem p) ((digits_tail p).append ht)

/-! ## Separators -/

/-- Texts with a separator between them and one more of them. -/
theorem intercalate_append_singleton {α : Type} (sep a : List α) {ls : List (List α)}
    (h : ls ≠ []) : sep.intercalate (ls ++ [a]) = sep.intercalate ls ++ sep ++ a := by
  induction ls with
  | nil => exact absurd rfl h
  | cons l ls ih =>
    cases ls with
    | nil =>
      rw [List.singleton_append, List.intercalate_cons_cons, List.intercalate_singleton,
        List.intercalate_singleton]
    | cons m ls =>
      have hrest := ih (by simp)
      rw [List.cons_append] at hrest ⊢
      rw [List.cons_append, List.intercalate_cons_cons, hrest, List.intercalate_cons_cons]
      simp only [List.append_assoc]

end Base.Text
