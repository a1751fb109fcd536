import SlurmLite.Base.CLib

/-!
# Time limits as text

`mins2time_str`, `secs2time_str` and `time_str2mins` of `parse_time.c`: a
number of minutes as `[days-]hours:minutes:seconds`, and back.

* **Scanning**: `foldlM_digits` reads a run of digits, and each separator has
  its equation.
* **Round trip**: `timeStr2mins_mins2timeStr`: a limit below 2^31 minutes reads
  back as the same number, whatever buffer the text fits in.
-/

namespace Slurm.ParseTime

open Base.Text Base.CLib

/-- `INFINITE`. -/
abbrev infinite : Nat := 4294967295

/-- What `snprintf` leaves in a buffer of `size` bytes. -/
def snprintf (size : Nat) (text : List Char) : List Char := text.take (size - 1)

/-- `"%2.2ld:%2.2ld:%2.2ld"`, after `"%ld-"` when there are days. -/
def clock (days hours minutes seconds : Nat) : List Char :=
  (if days = 0 then [] else decimal days ++ ['-']) ++
    (padded 2 hours ++ ':' :: (padded 2 minutes ++ ':' :: padded 2 seconds))

/-- `mins2time_str`: the text it leaves in `string`. -/
def mins2timeStr (time : Nat) (size : Nat) : List Char :=
  if time = infinite then snprintf size "UNLIMITED".toList
  else snprintf size (clock (time / 1440) (time / 60 % 24) (time % 60) 0)

/-- `secs2time_str`, for a time that is not negative. -/
def secs2timeStr (time : Nat) (size : Nat) : List Char :=
  if time = infinite then snprintf size "UNLIMITED".toList
  else snprintf size
    (clock (time / 86400) (time / 3600 % 24) (time / 60 % 60) (time % 60))

/-! ## Reading -/

/-- The variables of `time_str2mins`. -/
structure Scan where
  days : Int
  hr : Int
  min : Int
  sec : Int
  tmp : Int
deriving DecidableEq

/-- Before the loop. -/
def Scan.start : Scan := ⟨-1, -1, -1, -1, 0⟩

/-- The branch for `:` and for the end of the text. -/
def Scan.field (s : Scan) : Option Scan :=
  if s.min = -1 then some { s with min := s.tmp, tmp := 0 }
  else if s.sec = -1 then some { s with sec := s.tmp, tmp := 0 }
  else if s.hr = -1 then some { s with hr := s.min, min := s.sec, sec := s.tmp, tmp := 0 }
  else none

/-- One character of the text; `none` is invalid input. -/
def scanChar (s : Scan) (c : Char) : Option Scan :=
  if c.isDigit then some { s with tmp := pushDigit s.tmp c }
  else if c = '-' then
    if s.days ≠ -1 then none else some { s with days := s.tmp, tmp := 0 }
  else if c = ':' then s.field
  else none

/-- The minutes the fields stand for, seconds rounded up. -/
def Scan.mins (s : Scan) : Int :=
  -- "days-hr" or "days-hr:min"
  let s := if s.days ≠ -1 ∧ s.hr = -1 ∧ s.min ≠ 0 then
      { s with hr := s.min, min := s.sec, sec := 0 } else s
  let days := if s.days = -1 then 0 else s.days
  let hr := if s.hr = -1 then 0 else s.hr
  let min := if s.min = -1 then 0 else s.min
  let sec := if s.sec = -1 then 0 else s.sec
  let res := int32 ((days * 24 + hr) * 60 + min)
  if 0 < sec then int32 (res + 1) else res

/-- Letters in lower case. -/
def lower (s : List Char) : List Char := s.map Char.toLower

/-- Texts are equal when their letters are. -/
local instance lawfulBEq_text : LawfulBEq (List Char) := inferInstance

/-- `time_str2mins`: `-1` for no text and for no limit, `-2` for text that is
no time. -/
def timeStr2mins (string : List Char) : Int :=
  if string = [] then -1
  else if lower string ∈ [lower "-1".toList, lower "INFINITE".toList, lower "UNLIMITED".toList] then
    int32 infinite
  else
    match (string.foldlM scanChar .start).bind Scan.field with
    | none => -2
    | some s => s.mins

/-! ## Reading what was printed -/

theorem foldlM_digits {text : List Char} (s : Scan) (hd : Digits text) :
    text.foldlM scanChar s = some { s with tmp := text.foldl pushDigit s.tmp } := by
  induction text generalizing s with
  | nil => rfl
  | cons c text ih =>
    have hc : c.isDigit = true := hd c List.mem_cons_self
    rw [List.foldlM_cons, scanChar, if_pos hc, Option.bind_eq_bind, Option.bind_some,
      ih _ fun d hd' => hd d (List.mem_cons_of_mem _ hd')]
    rfl

/-- A number that fits is read whole. -/
theorem foldlM_number {text : List Char} {s : Scan} (hs : s.tmp = 0) (hd : Digits text)
    (hbound : value text < 2147483648) :
    text.foldlM scanChar s = some { s with tmp := value text } := by
  rw [foldlM_digits s hd, hs, foldl_pushDigit_zero hd hbound]

theorem scanChar_colon (s : Scan) : scanChar s ':' = s.field := by
  simp [scanChar]

theorem scanChar_dash {s : Scan} (h : s.days = -1) :
    scanChar s '-' = some { s with days := s.tmp, tmp := 0 } := by
  simp [scanChar, h]

/-- Hours, minutes and seconds fill the fields in that order. -/
theorem foldlM_clock {s : Scan} {hours minutes seconds : Nat} (hmin : s.min = -1)
    (hsec : s.sec = -1)
    (hhr : s.hr = -1) (htmp : s.tmp = 0) (hh : hours < 2147483648) (hm : minutes < 2147483648)
    (hs : seconds < 2147483648) :
    ((padded 2 hours ++ ':' :: (padded 2 minutes ++ ':' :: padded 2 seconds)).foldlM
      scanChar s).bind
      Scan.field = some ⟨s.days, hours, minutes, seconds, 0⟩ := by
  have hnat : ∀ n : Nat, (n : Int) ≠ -1 := fun n => by omega
  rw [List.foldlM_append, foldlM_number htmp (digits_padded _ _) (by rwa [value_padded]),
    value_padded,
    Option.bind_eq_bind, Option.bind_some, List.foldlM_cons, scanChar_colon, Scan.field,
      if_pos hmin,
    Option.bind_eq_bind, Option.bind_some, List.foldlM_append,
    foldlM_number rfl (digits_padded _ _) (by rwa [value_padded]), value_padded,
    Option.bind_eq_bind, Option.bind_some, List.foldlM_cons, scanChar_colon, Scan.field,
    if_neg (hnat hours), if_pos hsec, Option.bind_eq_bind, Option.bind_some,
    foldlM_number rfl (digits_padded _ _) (by rwa [value_padded]), value_padded, Option.bind_some,
    Scan.field, if_neg (hnat hours), if_neg (hnat minutes), if_pos hhr]

theorem clock_head_isDigit (days hours minutes seconds : Nat) :
    ∃ c rest, clock days hours minutes seconds = c :: rest ∧ c.isDigit = true := by
  have hcons : ∀ text rest : List Char, text ≠ [] → Digits text →
      ∃ c tail, text ++ rest = c :: tail ∧ c.isDigit = true := by
    intro text rest hne hd
    obtain ⟨c, tail, rfl⟩ := List.exists_cons_of_ne_nil hne
    exact ⟨c, tail ++ rest, rfl, hd c List.mem_cons_self⟩
  unfold clock
  split
  · rw [List.nil_append]
    exact hcons _ _ (padded_ne_nil _ _) (digits_padded _ _)
  · rw [List.append_assoc]
    exact hcons _ _ (decimal_ne_nil _) (digits_decimal _)

theorem toLower_of_isDigit {c : Char} (hc : c.isDigit = true) : c.toLower = c := by
  simp only [Char.isDigit, Bool.and_eq_true, decide_eq_true_eq] at hc
  have hle := UInt32.le_iff_toNat_le.mp hc.2
  unfold Char.toLower
  rw [dif_neg]
  rintro ⟨hge, -⟩
  have hge' := UInt32.le_iff_toNat_le.mp hge
  have h1 : '9'.val.toNat = 57 := rfl
  have h2 : 'A'.val.toNat = 65 := rfl
  omega

/-- Text that starts with a digit is none of the texts for no limit. -/
theorem lower_ne_of_digit {c : Char} (hc : c.isDigit = true) (rest : List Char) :
    lower (c :: rest) ∉ [lower "-1".toList, lower "INFINITE".toList, lower "UNLIMITED".toList] := by
  have hhead : lower (c :: rest) = c :: lower rest :=
    congrArg (· :: lower rest) (toLower_of_isDigit hc)
  rw [hhead]
  intro hmem
  simp only [List.mem_cons, List.not_mem_nil, or_false] at hmem
  obtain h | h | h := hmem
  all_goals
    have hhead := congrArg List.head? h
    simp only [lower, List.head?_cons] at hhead
    obtain rfl := Option.some.inj hhead
    exact absurd hc (by decide)

/-- A printed time is none of the texts for no limit. -/
theorem lower_clock_ne (days hours minutes seconds : Nat) :
    lower (clock days hours minutes seconds) ∉
      [lower "-1".toList, lower "INFINITE".toList, lower "UNLIMITED".toList] := by
  obtain ⟨c, rest, hclock, hc⟩ := clock_head_isDigit days hours minutes seconds
  rw [hclock]
  exact lower_ne_of_digit hc rest

/-- The fields a printed time is read into. -/
theorem foldlM_of_clock {days hours minutes seconds : Nat} (hd : days < 2147483648)
    (hh : hours < 2147483648) (hm : minutes < 2147483648) (hs : seconds < 2147483648) :
    ((clock days hours minutes seconds).foldlM scanChar .start).bind Scan.field =
      some ⟨if days = 0 then -1 else days, hours, minutes, seconds, 0⟩ := by
  unfold clock
  by_cases hdays : days = 0
  · rw [if_pos hdays, if_pos hdays, List.nil_append, foldlM_clock rfl rfl rfl rfl hh hm hs]
    rfl
  · rw [if_neg hdays, if_neg hdays, List.append_assoc, List.foldlM_append,
      foldlM_number rfl (digits_decimal _) (by rwa [value_decimal]), value_decimal,
      Option.bind_eq_bind, Option.bind_some, List.singleton_append, List.foldlM_cons,
      scanChar_dash rfl, Option.bind_eq_bind, Option.bind_some,
      foldlM_clock rfl rfl rfl rfl hh hm hs]

theorem length_clock_le {days hours minutes seconds : Nat} (hd : days < 10000000)
    (hh : hours < 60) (hm : minutes < 60) (hs : seconds < 60) :
    (clock days hours minutes seconds).length ≤ 16 := by
  have hdays : ndigits days ≤ 7 := (ndigits_le_iff (by omega)).mpr (by omega)
  have htwo : ∀ n < 60, (padded 2 n).length = 2 := by
    intro n hn
    have : ndigits n ≤ 2 := (ndigits_le_iff (by omega)).mpr (by omega)
    rw [length_padded]
    omega
  have hdec : (decimal days).length = ndigits days := rfl
  unfold clock
  split
  · simp only [List.length_append, List.length_cons, List.length_nil, htwo _ hh, htwo _ hm,
      htwo _ hs]
    omega
  · simp only [List.length_append, List.length_cons, List.length_nil, htwo _ hh, htwo _ hm,
      htwo _ hs, hdec]
    omega

/-- A number of minutes below 2^31 is read back from its text. The buffer must
hold the text; every caller passes one of 32 bytes or more. -/
theorem timeStr2mins_mins2timeStr {m size : Nat} (hm : m < 2147483648) (hsize : 17 ≤ size) :
    timeStr2mins (mins2timeStr m size) = m := by
  have hdays : m / 1440 < 10000000 := by omega
  have hlen := @length_clock_le (m / 1440) (m / 60 % 24) (m % 60) 0 hdays
    (by omega) (by omega) (by omega)
  have htext : mins2timeStr m size = clock (m / 1440) (m / 60 % 24) (m % 60) 0 := by
    rw [mins2timeStr, if_neg (by unfold infinite; omega), snprintf]
    exact List.take_of_length_le (by omega)
  have hne : clock (m / 1440) (m / 60 % 24) (m % 60) 0 ≠ [] := by
    obtain ⟨c, rest, hclock, -⟩ := clock_head_isDigit (m / 1440) (m / 60 % 24) (m % 60) 0
    rw [hclock]
    exact List.cons_ne_nil _ _
  have hhr : (((m / 60 % 24 : Nat) : Int)) ≠ -1 := by omega
  have hmin : (((m % 60 : Nat) : Int)) ≠ -1 := by omega
  have hzero : ((0 : Nat) : Int) ≠ -1 := by omega
  rw [timeStr2mins, htext, if_neg hne, if_neg (lower_clock_ne _ _ _ _),
    foldlM_of_clock (by omega) (by omega) (by omega) (by omega)]
  have hsec : ¬ (0 : Int) < ((0 : Nat) : Int) := by omega
  have htotal : ((if (m / 1440 : Nat) = 0 then (0 : Int) else ((m / 1440 : Nat) : Int)) * 24 +
      ((m / 60 % 24 : Nat) : Int)) * 60 + ((m % 60 : Nat) : Int) = m := by
    split <;> omega
  have hfill :
      (if (if m / 1440 = 0 then (-1 : Int) else ((m / 1440 : Nat) : Int)) = -1 then (0 : Int)
      else if m / 1440 = 0 then -1 else ((m / 1440 : Nat) : Int)) =
      if (m / 1440 : Nat) = 0 then (0 : Int) else ((m / 1440 : Nat) : Int) := by
    split <;> split <;> omega
  simp only [Scan.mins, hhr, hmin, hzero, hsec, false_and, and_false, if_false, hfill, htotal]
  exact int32_of_range (by omega) (by omega)

/-- A day and an hour. -/
theorem timeStr2mins_day : 1500 < 2147483648 ∧ 17 ≤ 32 ∧
    timeStr2mins (mins2timeStr 1500 32) = (1500 : Nat) :=
  ⟨by decide, by decide, timeStr2mins_mins2timeStr (by decide) (by decide)⟩

end Slurm.ParseTime
