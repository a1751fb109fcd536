import SlurmLite.ParseTime

/-!
# Dates as text

`parse_time` and `slurm_make_time_str` of `parse_time.c`. The text is read
from memory by position, as the source reads it, so a form that looks ahead may
look behind the end of the text; `localtime` and the present time are
parameters.

* **Scanning**: `scan_printed` follows the turns of the loop over a printed
  time: the date, the `T`, the clock.
* **Round trip**: `time_roundTrips_iff`: which times make `parse_time` call `mktime`
  with the same date and clock once they are printed.
-/

namespace Slurm.ParseTime

open Base.Text Base.CLib

/-- `struct tm`: the year counts from 1900 and the month from 0. -/
structure Tm where
  year : Int
  mon : Int
  mday : Int
  hour : Int
  min : Int
  sec : Int
  isdst : Int
deriving DecidableEq

/-- What `localtime` promises of the fields. -/
structure Tm.Valid (t : Tm) : Prop where
  mon : 0 ≤ t.mon ∧ t.mon ≤ 11
  mday : 1 ≤ t.mday ∧ t.mday ≤ 31
  hour : 0 ≤ t.hour ∧ t.hour ≤ 23
  min : 0 ≤ t.min ∧ t.min ≤ 59
  sec : 0 ≤ t.sec ∧ t.sec ≤ 60

/-! ## Printing -/

/-- `"%4.4u-%2.2u-%2.2uT%2.2u:%2.2u:%2.2u"`. -/
def iso8601 (t : Tm) : List Char :=
  padded 4 (uint32 (t.year + 1900)) ++ '-' :: (padded 2 (uint32 (t.mon + 1)) ++
    '-' :: (padded 2 (uint32 t.mday) ++ 'T' :: (padded 2 (uint32 t.hour) ++
      ':' :: (padded 2 (uint32 t.min) ++ ':' :: padded 2 (uint32 t.sec)))))

/-- `slurm_make_time_str`: the text it leaves in `string`. -/
def slurmMakeTimeStr (localtime : Int → Tm) (time : Int) (size : Nat) : List Char :=
  if time = 0 then snprintf size "Unknown".toList
  else snprintf size (iso8601 (localtime time))

/-! ## Reading -/

/-- Why a scan ends early: `goto prob` at a position, or no end in sight. -/
inductive Stop where
  | prob (pos : Nat)
  | endless
deriving DecidableEq

/-- `isblank`. -/
def isblank (c : Char) : Bool := c == ' ' || c == '\t'

/-- `strncasecmp(time_str + pos, word, n) == 0`, for a word of `n` small letters. -/
def startsWith (mem : Nat → Char) (pos : Nat) : List Char → Bool
  | [] => true
  | c :: word => (mem pos).toLower == c && startsWith mem (pos + 1) word

/-- The digit at a position. -/
def digitAt (mem : Nat → Char) (pos : Nat) : Except Stop Int :=
  if (mem pos).isDigit then .ok ((mem pos).toNat - 48) else .error (.prob pos)

/-- `while (isspace(time_str[offset])) offset++`. -/
def skipSpace (mem : Nat → Char) : Nat → Nat → Except Stop Nat
  | 0, _ => .error .endless
  | fuel + 1, pos => if isspace (mem pos) then skipSpace mem fuel (pos + 1) else .ok pos

/-- The loop of `_get_delta`: the count, the number of digits, the position. -/
def deltaLoop (mem : Nat → Char) : Nat → Nat → Int → Nat → Except Stop (Int × Nat × Nat)
  | 0, _, _, _ => .error .endless
  | fuel + 1, pos, cnt, digit =>
    if mem pos = '\x00' ∨ mem pos = '\n' then .ok (cnt, digit, pos)
    else if isspace (mem pos) then deltaLoop mem fuel (pos + 1) cnt digit
    else if startsWith mem pos "minutes".toList then .ok (cnt * 60, digit, pos + 7)
    else if startsWith mem pos "hours".toList then .ok (cnt * (60 * 60), digit, pos + 5)
    else if startsWith mem pos "days".toList then .ok (cnt * (24 * 60 * 60), digit, pos + 4)
    else if startsWith mem pos "weeks".toList then .ok (cnt * (7 * 24 * 60 * 60), digit, pos + 5)
    else if (mem pos).isDigit then
      deltaLoop mem fuel (pos + 1) (cnt * 10 + ((mem pos).toNat - 48)) (digit + 1)
    else .error (.prob (pos - 1))

/-- `_get_delta`, from the `+`: the new position and the seconds. -/
def getDelta (mem : Nat → Char) (fuel pos : Nat) : Except Stop (Nat × Int) := do
  let (cnt, digit, offset) ← deltaLoop mem fuel (pos + 1) 0 0
  if digit = 0 then .error (.prob pos) else pure (offset - 1, cnt)

/-- `_get_time`: the new position, the hour, the minute and the second. -/
def getTime (mem : Nat → Char) (fuel pos : Nat) : Except Stop (Nat × Int × Int × Int) := do
  let hr := (← digitAt mem pos) * 10 + (← digitAt mem (pos + 1))
  if hr > 23 then .error (.prob pos)
  if mem (pos + 2) ≠ ':' then .error (.prob (pos + 2))
  let min := (← digitAt mem (pos + 3)) * 10 + (← digitAt mem (pos + 4))
  if min > 59 then .error (.prob (pos + 3))
  let (sec, offset) ←
    if mem (pos + 5) = ':' then do
      let sec := (← digitAt mem (pos + 6)) * 10 + (← digitAt mem (pos + 7))
      if sec > 59 then .error (.prob (pos + 6)) else pure (sec, pos + 8)
    else pure (0, pos + 5)
  let offset ← skipSpace mem fuel offset
  if startsWith mem offset "pm".toList then
    if hr + 12 > 23 then
      if hr + 12 = 24 then pure (offset + 1, 12, min, sec) else .error (.prob offset)
    else pure (offset + 1, hr + 12, min, sec)
  else if startsWith mem offset "am".toList then
    if hr > 11 then
      if hr = 12 then pure (offset + 1, 0, min, sec) else .error (.prob offset)
    else pure (offset + 1, hr, min, sec)
  else pure (offset - 1, hr, min, sec)

/-- One digit, or two when another follows: the number and the position after it. -/
def oneOrTwo (mem : Nat → Char) (pos : Nat) (first : Int) : Int × Nat :=
  if (mem (pos + 1)).isDigit then (first * 10 + ((mem (pos + 1)).toNat - 48), pos + 2)
  else (first, pos + 1)

/-- `_get_date`: the new position, the month, the day and, when one was given,
the year. The first digit of a month is not tested. -/
def getDate (mem : Nat → Char) (pos : Nat) : Except Stop (Nat × Int × Int × Option Int) := do
  if mem (pos + 4) = '-' ∧ mem (pos + 7) = '-' then
    let y1 ← digitAt mem pos
    let y2 ← digitAt mem (pos + 1)
    let y3 ← digitAt mem (pos + 2)
    let y4 ← digitAt mem (pos + 3)
    let (mon, offset) := oneOrTwo mem (pos + 5) ((mem (pos + 5)).toNat - 48)
    if mon < 1 ∨ mon > 12 then .error (.prob (offset - 2))
    let d ← digitAt mem (offset + 1)
    let (day, offset) := oneOrTwo mem (offset + 1) d
    if day < 1 ∨ day > 31 then .error (.prob (offset - 2))
    pure (offset - 1, mon - 1, day, some (((y1 * 10 + y2) * 10 + y3) * 10 + y4 - 1900))
  else
    let (mon, offset) := oneOrTwo mem pos ((mem pos).toNat - 48)
    if mon < 1 ∨ mon > 12 then .error (.prob (offset - 2))
    let offset := if mem offset = '.' ∨ mem offset = '/' then offset + 1 else offset
    let d ← digitAt mem offset
    let (day, offset) := oneOrTwo mem offset d
    if day < 1 ∨ day > 31 then .error (.prob (offset - 2))
    let offset := if mem offset = '.' ∨ mem offset = '/' then offset + 1 else offset
    if (mem offset).isDigit then
      let yr := ((mem offset).toNat - 48 : Int) * 10 + (← digitAt mem (offset + 1))
      pure (offset + 1, mon - 1, day, if yr ≠ 0 then some (yr + 100) else none)
    else pure (offset - 1, mon - 1, day, none)

/-- The variables of `parse_time`. `buf` is the buffer every call of
`localtime` fills, which `time_now_tm` points to. -/
structure Fields where
  hour : Int
  minute : Int
  second : Int
  month : Int
  mday : Int
  year : Int
  buf : Tm
deriving DecidableEq

/-- The date of a time. -/
def Fields.setDate (f : Fields) (t : Tm) : Fields :=
  { f with month := t.mon, mday := t.mday, year := t.year, buf := t }

/-- The scan behind `now`, from the position `i`: the new position and the
time. The offset `i` is added to `pos` whole. -/
def nowLoop (mem : Nat → Char) (size : Nat) : Nat → Nat → Nat → Except Stop (Nat × Int)
  | 0, _, _ => .error .endless
  | fuel + 1, pos, i =>
    if mem i = '+' then getDelta mem size (pos + i)
    else if isblank (mem i) then nowLoop mem size fuel pos (i + 1)
    else if mem i = '\x00' ∨ mem i = '\n' then .ok (pos + (i - 1), 0)
    else .error (.prob (pos + i))

/-- One turn of the loop of `parse_time`: the position the turn leaves, before
`pos++`, and the variables. -/
def step (localtime : Int → Tm) (now : Int) (mem : Nat → Char) (fuel pos : Nat) (f : Fields) :
    Except Stop (Nat × Fields) :=
  if isblank (mem pos) ∨ mem pos = '-' ∨ mem pos = 'T' then .ok (pos, f)
  else if startsWith mem pos "today".toList then .ok (pos + 4, f.setDate f.buf)
  else if startsWith mem pos "tomorrow".toList then
    .ok (pos + 7, f.setDate (localtime (now + 24 * 60 * 60)))
  else if startsWith mem pos "midnight".toList then
    .ok (pos + 7, { f with hour := 0, minute := 0, second := 0 })
  else if startsWith mem pos "noon".toList then .ok (pos + 3, { f with hour := 12, minute := 0 })
  else if startsWith mem pos "teatime".toList then .ok (pos + 6, { f with hour := 16, minute := 0 })
  else if startsWith mem pos "now".toList then do
    let (pos, delta) ← nowLoop mem fuel fuel pos (pos + 3)
    let later := localtime (now + delta)
    pure (pos, { f.setDate later with
      hour := later.hour, minute := later.min, second := later.sec })
  else if ¬ (mem pos).isDigit then .error (.prob pos)
  else if mem (pos + 2) = ':' then do
    let (pos, hour, minute, second) ← getTime mem fuel pos
    pure (pos, { f with hour := hour, minute := minute, second := second })
  else do
    let (pos, month, mday, year) ← getDate mem pos
    pure (pos, { f with month := month, mday := mday, year := year.getD f.year })

/-- The loop of `parse_time`. -/
def scan (localtime : Int → Tm) (now : Int) (mem : Nat → Char) (size : Nat) :
    Nat → Nat → Fields → Except Stop Fields
  | 0, _, _ => .error .endless
  | fuel + 1, pos, f =>
    if mem pos = '\x00' ∨ mem pos = '\n' then .ok f
    else do
      let (pos, f) ← step localtime now mem size pos f
      scan localtime now mem size fuel (pos + 1) f

/-- How `parse_time` returns: zero, or what `mktime` makes of a time. -/
inductive Answer where
  | zero
  | mktime (t : Tm)
deriving DecidableEq

/-- A date for a time given without one: the next day it comes, or the present
day when `past` is set. -/
def Fields.soonest (localtime : Int → Tm) (now : Int) (past : Bool) (f : Fields) : Fields :=
  if f.hour = -1 then { f with hour := 0, minute := 0 }
  else if f.month = -1 then
    if past ∨ f.hour > f.buf.hour ∨ f.hour = f.buf.hour ∧ f.minute > f.buf.min then
      f.setDate f.buf
    else f.setDate (localtime (now + 24 * 60 * 60))
  else f

/-- A year for a date given without one. -/
def Fields.withYear (past : Bool) (f : Fields) : Fields :=
  if f.year ≠ -1 then f
  else if past then
    { f with year := if f.month > f.buf.mon then f.buf.year - 1 else f.buf.year }
  else if f.month > f.buf.mon ∨ f.month = f.buf.mon ∧ (f.mday > f.buf.mday ∨
      f.mday = f.buf.mday ∧ (f.hour > f.buf.hour ∨ f.hour = f.buf.hour ∧ f.minute > f.buf.min)) then
    { f with year := f.buf.year }
  else { f with year := f.buf.year + 1 }

/-- `parse_time`, with a bound on the characters it looks at. -/
def parseTime (localtime : Int → Tm) (now : Int) (past : Bool) (mem : Nat → Char) (size : Nat) :
    Except Stop Answer := do
  let f ← scan localtime now mem size size 0 ⟨-1, -1, 0, -1, -1, -1, localtime now⟩
  if f.hour = -1 ∧ f.month = -1 then pure .zero
  else
    let f := (f.soonest localtime now past).withYear past
    pure (.mktime ⟨f.year, f.month, f.mday, f.hour, f.minute, f.second, -1⟩)

/-! ## The printed form, character by character -/

theorem decimal_digit {d : Nat} (hd : d < 10) : decimal d = [d.digitChar] :=
  Nat.toDigits_of_lt_base hd

theorem decimal_split {n : Nat} (hn : 10 ≤ n) :
    decimal n = decimal (n / 10) ++ [(n % 10).digitChar] := by
  have h := @decimal_ten_mul_add (n / 10) (n % 10) (by omega) (by omega)
  rwa [Nat.div_add_mod, decimal_digit (Nat.mod_lt _ (by omega))] at h

theorem padded_two {n : Nat} (hn : n < 100) :
    padded 2 n = [(n / 10).digitChar, (n % 10).digitChar] := by
  by_cases hsmall : n < 10
  · have hdigits : ndigits n = 1 := congrArg List.length (decimal_digit hsmall)
    have hten : n / 10 = 0 := by omega
    rw [padded, hdigits, decimal_digit hsmall, hten, Nat.mod_eq_of_lt hsmall]
    rfl
  · have htext : decimal n = [(n / 10).digitChar, (n % 10).digitChar] := by
      rw [decimal_split (by omega), decimal_digit (by omega)]
      rfl
    have hdigits : ndigits n = 2 := congrArg List.length htext
    rw [padded, hdigits, htext]
    rfl

theorem padded_four {n : Nat} (h1 : 1000 ≤ n) (h2 : n ≤ 9999) :
    padded 4 n = [(n / 1000).digitChar, (n / 100 % 10).digitChar, (n / 10 % 10).digitChar,
      (n % 10).digitChar] := by
  have htext : decimal n = [(n / 1000).digitChar, (n / 100 % 10).digitChar,
      (n / 10 % 10).digitChar, (n % 10).digitChar] := by
    have hundred : n / 10 / 10 = n / 100 := by omega
    have hthousand : n / 100 / 10 = n / 1000 := by omega
    rw [decimal_split (by omega), @decimal_split (n / 10) (by omega), hundred,
      @decimal_split (n / 100) (by omega), hthousand, decimal_digit (by omega)]
    rfl
  have hdigits : ndigits n = 4 := congrArg List.length htext
  rw [padded, hdigits, htext]
  rfl

theorem digitChar_isDigit {d : Nat} (hd : d < 10) : d.digitChar.isDigit = true := by
  interval_cases d <;> decide

theorem digitChar_toNat {d : Nat} (hd : d < 10) : ((d.digitChar.toNat : Int) - 48) = d := by
  interval_cases d <;> decide

theorem uint32_of_range {x : Int} (h1 : 0 ≤ x) (h2 : x < 4294967296) : (uint32 x : Int) = x := by
  unfold uint32
  omega

/-! ## The turns of the loop -/

theorem digitAt_digitChar {mem : Nat → Char} {pos d : Nat} (h : mem pos = d.digitChar)
    (hd : d < 10) : digitAt mem pos = .ok (d : Int) := by
  rw [digitAt, h, if_pos (digitChar_isDigit hd), digitChar_toNat hd]

theorem oneOrTwo_digitChar {mem : Nat → Char} {pos d : Nat} (first : Int)
    (h : mem (pos + 1) = d.digitChar) (hd : d < 10) :
    oneOrTwo mem pos first = (first * 10 + d, pos + 2) := by
  rw [oneOrTwo, h, if_pos (digitChar_isDigit hd), digitChar_toNat hd]

/-- No word begins with a digit. -/
theorem startsWith_digit {mem : Nat → Char} {pos : Nat} {c : Char} (word : List Char)
    (h : (mem pos).isDigit = true) (hc : c.isDigit = false) :
    startsWith mem pos (c :: word) = false := by
  have hne : ((mem pos).toLower == c) = false := by
    rw [toLower_of_isDigit h, beq_eq_false_iff_ne]
    rintro rfl
    rw [h] at hc
    cases hc
  rw [startsWith, hne, Bool.false_and]

/-- At a digit the loop reads a clock time or a date. -/
theorem step_digit {localtime : Int → Tm} {now : Int} {mem : Nat → Char} {fuel pos : Nat}
    {f : Fields} (h : (mem pos).isDigit = true) :
    (∀ at' hour minute second, mem (pos + 2) = ':' →
      getTime mem fuel pos = .ok (at', hour, minute, second) →
      step localtime now mem fuel pos f =
        .ok (at', { f with hour := hour, minute := minute, second := second })) ∧
    (∀ stop, mem (pos + 2) = ':' → getTime mem fuel pos = .error stop →
      step localtime now mem fuel pos f = .error stop) ∧
    (∀ at' month mday year, mem (pos + 2) ≠ ':' → getDate mem pos = .ok (at', month, mday, year) →
      step localtime now mem fuel pos f =
        .ok (at', { f with month := month, mday := mday, year := year.getD f.year })) := by
  have hblank : ¬(isblank (mem pos) = true ∨ mem pos = '-' ∨ mem pos = 'T') := by
    rintro (hb | hb | hb)
    · simp only [isblank, Bool.or_eq_true, beq_iff_eq] at hb
      obtain hb | hb := hb <;> rw [hb] at h <;> exact absurd h (by decide)
    · rw [hb] at h
      exact absurd h (by decide)
    · rw [hb] at h
      exact absurd h (by decide)
  have hword : ∀ word : List Char, (word.head?.map Char.isDigit) = some false →
      ¬startsWith mem pos word = true := by
    intro word hw
    cases word with
    | nil => cases hw
    | cons c word => simp [startsWith_digit word h (Option.some.inj hw)]
  have hstep := @step.eq_1 localtime now mem fuel pos f
  rw [if_neg hblank, if_neg (hword _ (by decide)), if_neg (hword _ (by decide)),
    if_neg (hword _ (by decide)), if_neg (hword _ (by decide)), if_neg (hword _ (by decide)),
    if_neg (hword _ (by decide)), if_neg (not_not_intro h)] at hstep
  refine ⟨?_, ?_, ?_⟩
  · intro at' hour minute second hc hget
    rw [hstep, if_pos hc, hget]
    rfl
  · intro stop hc hget
    rw [hstep, if_pos hc, hget]
    rfl
  · intro at' month mday year hc hget
    rw [hstep, if_neg hc, hget]
    rfl

theorem step_T {localtime : Int → Tm} {now : Int} {mem : Nat → Char} {fuel pos : Nat}
    {f : Fields} (h : mem pos = 'T') : step localtime now mem fuel pos f = .ok (pos, f) := by
  rw [step, if_pos (Or.inr (Or.inr h))]

/-- A number of two digits at a position. -/
def TwoDigits (mem : Nat → Char) (pos : Nat) (x : Int) : Prop :=
  ∃ a b : Nat, a < 10 ∧ b < 10 ∧ x = a * 10 + b ∧
    mem pos = a.digitChar ∧ mem (pos + 1) = b.digitChar

theorem TwoDigits.isDigit {mem : Nat → Char} {pos : Nat} {x : Int} (h : TwoDigits mem pos x) :
    (mem pos).isDigit = true := by
  obtain ⟨a, b, ha, -, -, hmem, -⟩ := h
  rw [hmem]
  exact digitChar_isDigit ha

/-- At a digit the text goes on, and no colon stands. -/
theorem ne_of_isDigit {c d : Char} (h : c.isDigit = true) (hd : d.isDigit = false) : c ≠ d := by
  rintro rfl
  rw [h] at hd
  cases hd

/-- `YYYY-MM-DDTHH:MM:SS` at the start of a memory. -/
structure Printed (mem : Nat → Char) (t : Tm) : Prop where
  century : ∃ c y : Int, t.year + 1900 = c * 100 + y ∧ TwoDigits mem 0 c ∧ TwoDigits mem 2 y
  dash : mem 4 = '-'
  mon : TwoDigits mem 5 (t.mon + 1)
  dash' : mem 7 = '-'
  mday : TwoDigits mem 8 t.mday
  letter : mem 10 = 'T'
  hour : TwoDigits mem 11 t.hour
  colon : mem 13 = ':'
  min : TwoDigits mem 14 t.min
  colon' : mem 16 = ':'
  sec : TwoDigits mem 17 t.sec
  nul : mem 19 = '\x00'

/-- `_get_date` on `YYYY-MM-DD`. -/
theorem getDate_printed {mem : Nat → Char} {t : Tm} (hv : t.Valid) (hp : Printed mem t) :
    getDate mem 0 = .ok (9, t.mon, t.mday, some t.year) := by
  obtain ⟨c, y, hyear, ⟨y1, y2, l1, l2, hc, hy1, hy2⟩, y3, y4, l3, l4, hy, hy3, hy4⟩ := hp.century
  obtain ⟨m1, m2, l5, l6, hm, hm1, hm2⟩ := hp.mon
  obtain ⟨d1, d2, l7, l8, hd, hd1, hd2⟩ := hp.mday
  obtain ⟨hmon0, hmon1⟩ := hv.mon
  obtain ⟨hday0, hday1⟩ := hv.mday
  have hfirst : ((mem 5).toNat : Int) - 48 = m1 := by rw [hm1, digitChar_toNat l5]
  have hmonth : oneOrTwo mem 5 m1 = (t.mon + 1, 7) := by
    rw [hm]
    exact oneOrTwo_digitChar _ hm2 l6
  have hmday : oneOrTwo mem 8 d1 = (t.mday, 10) := by
    rw [hd]
    exact oneOrTwo_digitChar _ hd2 l8
  have hmon' : ¬(t.mon + 1 < 1 ∨ t.mon + 1 > 12) := by omega
  have hday' : ¬(t.mday < 1 ∨ t.mday > 31) := by omega
  have hyears : (((y1 : Int) * 10 + y2) * 10 + y3) * 10 + y4 - 1900 = t.year := by omega
  have hmonths : t.mon + 1 - 1 = t.mon := by omega
  simp only [getDate, Nat.zero_add, hp.dash, hp.dash', and_self, if_true,
    digitAt_digitChar hy1 l1, digitAt_digitChar hy2 l2, digitAt_digitChar hy3 l3,
    digitAt_digitChar hy4 l4, hfirst, hmonth, Nat.reduceAdd, digitAt_digitChar hd1 l7, bind,
    Except.bind, pure, Except.pure, hmday, if_neg hmon', if_neg hday', hyears, hmonths]

/-- `_get_time` on `HH:MM:SS` at the end of the text. -/
theorem getTime_printed {mem : Nat → Char} {fuel : Nat} {t : Tm} (hv : t.Valid)
    (hp : Printed mem t) :
    getTime mem (fuel + 1) 11 =
      if t.sec ≤ 59 then .ok (18, t.hour, t.min, t.sec) else .error (.prob 17) := by
  obtain ⟨h1, h2, l1, l2, hh, hh1, hh2⟩ := hp.hour
  obtain ⟨m1, m2, l3, l4, hm, hm1, hm2⟩ := hp.min
  obtain ⟨s1, s2, l5, l6, hs, hs1, hs2⟩ := hp.sec
  obtain ⟨-, hhour⟩ := hv.hour
  obtain ⟨-, hmin⟩ := hv.min
  have hhour' : ¬(t.hour > 23) := by omega
  have hmin' : ¬(t.min > 59) := by omega
  have hskip : skipSpace mem (fuel + 1) 19 = .ok 19 := by
    rw [skipSpace, hp.nul]
    rfl
  have hword : ∀ c word, c ≠ '\x00' → ¬startsWith mem 19 (c :: word) = true := by
    intro c word hne
    have hbeq : (('\x00' : Char).toLower == c) = false := beq_eq_false_iff_ne.mpr (Ne.symm hne)
    rw [startsWith, hp.nul, hbeq, Bool.false_and]
    exact Bool.false_ne_true
  have hpm : ¬startsWith mem 19 "pm".toList = true := hword 'p' ['m'] (by decide)
  have ham : ¬startsWith mem 19 "am".toList = true := hword 'a' ['m'] (by decide)
  have hcolon : ¬(mem 13 ≠ ':') := not_not_intro hp.colon
  by_cases hsec : t.sec ≤ 59
  · have hsec' : ¬(t.sec > 59) := by omega
    rw [if_pos hsec]
    simp only [getTime, Nat.reduceAdd, digitAt_digitChar hh1 l1, digitAt_digitChar hh2 l2, ← hh,
      digitAt_digitChar hm1 l3, digitAt_digitChar hm2 l4, ← hm, digitAt_digitChar hs1 l5,
      digitAt_digitChar hs2 l6, ← hs, if_neg hhour', if_neg hcolon, if_neg hmin',
      if_pos hp.colon', if_neg hsec', bind, Except.bind, pure, Except.pure, hskip, if_neg hpm,
      if_neg ham, Nat.reduceSub]
  · have hsec' : t.sec > 59 := by omega
    rw [if_neg hsec]
    simp only [getTime, Nat.reduceAdd, digitAt_digitChar hh1 l1, digitAt_digitChar hh2 l2, ← hh,
      digitAt_digitChar hm1 l3, digitAt_digitChar hm2 l4, ← hm, digitAt_digitChar hs1 l5,
      digitAt_digitChar hs2 l6, ← hs, if_neg hhour', if_neg hcolon, if_neg hmin',
      if_pos hp.colon', if_pos hsec', bind, Except.bind, pure, Except.pure]

/-! ## Reading what was printed -/

/-- A C string at the start of a memory. -/
def Holds (mem : Nat → Char) (text : List Char) : Prop :=
  (∀ i (h : i < text.length), mem i = text[i]) ∧ mem text.length = '\x00'

theorem Holds.at_index {mem : Nat → Char} {text : List Char} {i : Nat} {c : Char}
    (h : Holds mem text) (hi : text[i]? = some c) : mem i = c := by
  obtain ⟨hlt, hget⟩ := List.getElem?_eq_some_iff.mp hi
  rw [h.1 i hlt, hget]

theorem length_iso8601 {t : Tm} (hv : t.Valid)
    (hyear : 1000 ≤ t.year + 1900 ∧ t.year + 1900 ≤ 9999) : (iso8601 t).length = 19 := by
  obtain ⟨⟨hmon0, hmon1⟩, ⟨hday0, hday1⟩, ⟨hhour0, hhour1⟩, ⟨hmin0, hmin1⟩, hsec0, hsec1⟩ := hv
  have htwo : ∀ {x : Int}, 0 ≤ x → x < 100 → (padded 2 (uint32 x)).length = 2 := by
    intro x h0 h1
    have := @uint32_of_range x h0 (by omega)
    rw [padded_two (by omega)]
    rfl
  have hfour : (padded 4 (uint32 (t.year + 1900))).length = 4 := by
    have := @uint32_of_range (t.year + 1900) (by omega) (by omega)
    rw [padded_four (by omega) (by omega)]
    rfl
  simp only [iso8601, List.length_append, List.length_cons, hfour,
    htwo (x := t.mon + 1) (by omega) (by omega), htwo (x := t.mday) (by omega) (by omega),
    htwo (x := t.hour) (by omega) (by omega), htwo (x := t.min) (by omega) (by omega),
    htwo (x := t.sec) (by omega) (by omega)]

theorem printed_of_holds {mem : Nat → Char} {t : Tm} (hv : t.Valid)
    (hyear : 1000 ≤ t.year + 1900 ∧ t.year + 1900 ≤ 9999) (hmem : Holds mem (iso8601 t)) :
    Printed mem t := by
  have hnul := hmem.2
  rw [length_iso8601 hv hyear] at hnul
  obtain ⟨⟨hmon0, hmon1⟩, ⟨hday0, hday1⟩, ⟨hhour0, hhour1⟩, ⟨hmin0, hmin1⟩, hsec0, hsec1⟩ := hv
  have hy := @uint32_of_range (t.year + 1900) (by omega) (by omega)
  have hmo := @uint32_of_range (t.mon + 1) (by omega) (by omega)
  have hd := @uint32_of_range t.mday (by omega) (by omega)
  have hh := @uint32_of_range t.hour (by omega) (by omega)
  have hmi := @uint32_of_range t.min (by omega) (by omega)
  have hs := @uint32_of_range t.sec (by omega) (by omega)
  unfold iso8601 at hmem
  generalize uint32 (t.year + 1900) = Y at hy hmem
  generalize uint32 (t.mon + 1) = M at hmo hmem
  generalize uint32 t.mday = D at hd hmem
  generalize uint32 t.hour = H at hh hmem
  generalize uint32 t.min = I at hmi hmem
  generalize uint32 t.sec = S at hs hmem
  rw [padded_four (by omega) (by omega), padded_two (by omega : M < 100),
    padded_two (by omega : D < 100), padded_two (by omega : H < 100),
    padded_two (by omega : I < 100), padded_two (by omega : S < 100)] at hmem
  refine ⟨⟨(Y / 100 : Nat), (Y % 100 : Nat), by omega, ?_, ?_⟩, hmem.at_index (i := 4) rfl, ?_,
    hmem.at_index (i := 7) rfl, ?_, hmem.at_index (i := 10) rfl, ?_,
      hmem.at_index (i := 13) rfl, ?_,
    hmem.at_index (i := 16) rfl, ?_, hnul⟩
  · exact ⟨Y / 1000, Y / 100 % 10, by omega, by omega, by omega, hmem.at_index (i := 0) rfl,
      hmem.at_index (i := 1) rfl⟩
  · exact ⟨Y / 10 % 10, Y % 10, by omega, by omega, by omega, hmem.at_index (i := 2) rfl,
      hmem.at_index (i := 3) rfl⟩
  · exact ⟨M / 10, M % 10, by omega, by omega, by omega, hmem.at_index (i := 5) rfl,
      hmem.at_index (i := 6) rfl⟩
  · exact ⟨D / 10, D % 10, by omega, by omega, by omega, hmem.at_index (i := 8) rfl,
      hmem.at_index (i := 9) rfl⟩
  · exact ⟨H / 10, H % 10, by omega, by omega, by omega, hmem.at_index (i := 11) rfl,
      hmem.at_index (i := 12) rfl⟩
  · exact ⟨I / 10, I % 10, by omega, by omega, by omega, hmem.at_index (i := 14) rfl,
      hmem.at_index (i := 15) rfl⟩
  · exact ⟨S / 10, S % 10, by omega, by omega, by omega, hmem.at_index (i := 17) rfl,
      hmem.at_index (i := 18) rfl⟩

/-- The three turns over a printed time: the date, the `T`, the clock. -/
theorem scan_printed {localtime : Int → Tm} {now : Int} {mem : Nat → Char} {fuel size : Nat}
    {t : Tm} {f : Fields} (hv : t.Valid) (hp : Printed mem t) :
    scan localtime now mem (size + 1) (fuel + 4) 0 f =
      if t.sec ≤ 59 then
        .ok ⟨t.hour, t.min, t.sec, t.mon, t.mday, t.year, f.buf⟩
      else .error (.prob 17) := by
  obtain ⟨c, y, -, hc, hy⟩ := hp.century
  have hrun : ∀ {c : Char}, c.isDigit = true → ¬(c = '\x00' ∨ c = '\n') := by
    rintro c h (h' | h')
    · exact ne_of_isDigit h rfl h'
    · exact ne_of_isDigit h rfl h'
  have h0 := (@step_digit localtime now mem (size + 1) 0 f hc.isDigit).2.2 _ _ _ _
    (ne_of_isDigit hy.isDigit rfl) (getDate_printed hv hp)
  have hT : ¬(mem 10 = '\x00' ∨ mem 10 = '\n') := by
    rw [hp.letter]
    decide
  have hlast : mem (18 + 1) = '\x00' := hp.nul
  have h11 := fun f => @step_digit localtime now mem (size + 1) 11 f hp.hour.isDigit
  have hclock := @getTime_printed mem size t hv hp
  rw [scan, if_neg (hrun hc.isDigit), h0]
  simp only [bind, Except.bind]
  rw [scan, if_neg hT, step_T hp.letter]
  simp only [bind, Except.bind]
  rw [scan, if_neg (hrun hp.hour.isDigit)]
  by_cases hsec : t.sec ≤ 59
  · rw [if_pos hsec] at hclock ⊢
    rw [(h11 _).1 _ _ _ _ hp.colon hclock]
    simp only [bind, Except.bind]
    rw [scan, if_pos (Or.inl hlast)]
    rfl
  · rw [if_neg hsec] at hclock ⊢
    rw [(h11 _).2.1 _ hp.colon hclock]
    rfl

/-- The text of a time makes `parse_time` call `mktime` with the same date and
clock, at any present time, with any memory behind the text. The buffer holds
the 19 characters; callers pass one of 32 bytes. -/
def RoundTrips (localtime : Int → Tm) (time : Int) : Prop :=
  ∀ (now : Int) (past : Bool) (mem : Nat → Char) (size fuel : Nat), 20 ≤ size → 20 ≤ fuel →
    Holds mem (slurmMakeTimeStr localtime time size) →
    parseTime localtime now past mem fuel = .ok (.mktime { localtime time with isdst := -1 })

/-- The memory that holds a text and nothing behind it. -/
def memOf (text : List Char) (i : Nat) : Char := text.getD i '\x00'

theorem holds_memOf (text : List Char) : Holds (memOf text) text := by
  constructor
  · intro i h
    rw [memOf, List.getD_eq_getElem?_getD, List.getElem?_eq_getElem h, Option.getD_some]
  · rw [memOf, List.getD_eq_getElem?_getD, List.getElem?_eq_none (Nat.le_refl _), Option.getD_none]

theorem slurmMakeTimeStr_of_ne_zero {localtime : Int → Tm} {time : Int} {size : Nat}
    (h0 : time ≠ 0) (hv : (localtime time).Valid)
    (hyear : 1000 ≤ (localtime time).year + 1900 ∧ (localtime time).year + 1900 ≤ 9999)
    (hsize : 20 ≤ size) : slurmMakeTimeStr localtime time size = iso8601 (localtime time) := by
  have hlen := length_iso8601 hv hyear
  rw [slurmMakeTimeStr, if_neg h0, snprintf]
  exact List.take_of_length_le (by omega)

/-- What `parse_time` makes of a printed time. -/
theorem parseTime_printed {localtime : Int → Tm} {now : Int} {past : Bool} {mem : Nat → Char}
    {fuel : Nat} {t : Tm} (hv : t.Valid) (hp : Printed mem t) (hfuel : 4 ≤ fuel) :
    parseTime localtime now past mem fuel =
      if t.sec ≤ 59 then
        .ok (.mktime ⟨(Fields.withYear past
          ⟨t.hour, t.min, t.sec, t.mon, t.mday, t.year, localtime now⟩).year,
            t.mon, t.mday, t.hour, t.min, t.sec, -1⟩)
      else .error (.prob 17) := by
  obtain ⟨n, rfl⟩ := Nat.exists_eq_add_of_le' hfuel
  have hhour : t.hour ≠ -1 := by have := hv.hour; omega
  have hmon : t.mon ≠ -1 := by have := hv.mon; omega
  have hscan := @scan_printed localtime now mem n (n + 3) t
    ⟨-1, -1, 0, -1, -1, -1, localtime now⟩ hv hp
  rw [parseTime, hscan]
  by_cases hsec : t.sec ≤ 59
  · simp only [if_pos hsec, bind, Except.bind, pure, Except.pure, hhour, hmon, and_self, if_false,
      Fields.soonest]
    unfold Fields.withYear
    split
    · rfl
    · split
      · rfl
      · split <;> rfl
  · simp only [if_neg hsec, bind, Except.bind]

/-- A printed time reads back unless it is zero, printed as `Unknown`, lies in
a leap second, or in 1899, the year the scan takes for none. -/
theorem time_roundTrips_iff {localtime : Int → Tm} {time : Int} (hv : (localtime time).Valid)
    (hyear : 1000 ≤ (localtime time).year + 1900 ∧ (localtime time).year + 1900 ≤ 9999) :
    RoundTrips localtime time ↔
      time ≠ 0 ∧ (localtime time).sec ≤ 59 ∧ (localtime time).year + 1900 ≠ 1899 := by
  constructor
  · intro h
    have hrun := h time false (memOf (slurmMakeTimeStr localtime time 32)) 32 20 (by omega)
      (by omega) (holds_memOf _)
    have h0 : time ≠ 0 := by
      rintro rfl
      have hU : memOf (slurmMakeTimeStr localtime 0 32) = memOf "Unknown".toList := by
        rw [slurmMakeTimeStr, if_pos rfl]
        rfl
      have hscan : ∀ lt now f, scan lt now (memOf "Unknown".toList) 20 20 0 f =
          .error (.prob 0) := fun _ _ _ => rfl
      rw [hU, parseTime, hscan] at hrun
      cases hrun
    have htext := @slurmMakeTimeStr_of_ne_zero localtime time 32 h0 hv hyear (by omega)
    have hp := printed_of_holds hv hyear (holds_memOf (iso8601 (localtime time)))
    rw [htext, parseTime_printed hv hp (by omega)] at hrun
    by_cases hsec : (localtime time).sec ≤ 59
    · refine ⟨h0, hsec, ?_⟩
      intro hbad
      have hnone : (localtime time).year = -1 := by omega
      rw [if_pos hsec] at hrun
      -- the present is taken to be the time itself, so the year becomes 1900
      have hmk := congrArg Tm.year (Answer.mktime.inj (Except.ok.inj hrun))
      simp only [Fields.withYear, hnone, ne_eq, not_true_eq_false, if_false, Bool.false_eq_true,
        gt_iff_lt, lt_irrefl, or_self, and_false] at hmk
      omega
    · rw [if_neg hsec] at hrun
      cases hrun
  · rintro ⟨h0, hsec, hbad⟩ now past mem size fuel hsize hfuel hmem
    have hnone : (localtime time).year ≠ -1 := by omega
    rw [slurmMakeTimeStr_of_ne_zero h0 hv hyear hsize] at hmem
    rw [parseTime_printed hv (printed_of_holds hv hyear hmem) (by omega), if_pos hsec,
      Fields.withYear, if_pos hnone]

/-- The last second of 1899, seen from 2009. -/
def lastOf1899 (time : Int) : Tm :=
  if time = -2208988801 then ⟨-1, 11, 31, 23, 59, 59, 0⟩ else ⟨109, 5, 15, 12, 0, 0, 0⟩

theorem not_roundTrips_1899 : ¬RoundTrips lastOf1899 (-2208988801) := by
  intro h
  have hrun := h 1245067200 false (memOf "1899-12-31T23:59:59".toList) 32 20 (by omega)
    (by omega) (by
      have htext : slurmMakeTimeStr lastOf1899 (-2208988801) 32 = "1899-12-31T23:59:59".toList := by
        decide +kernel
      rw [htext]
      exact holds_memOf _)
  revert hrun
  decide +kernel

/-- A time of 1234567890 seconds. -/
theorem roundTrips_2009 :
    (⟨109, 1, 13, 23, 31, 30, 0⟩ : Tm).Valid ∧
      (1000 ≤ (109 : Int) + 1900 ∧ (109 : Int) + 1900 ≤ 9999) ∧
      RoundTrips (fun _ => ⟨109, 1, 13, 23, 31, 30, 0⟩) 1234567890 := by
  have hv : (⟨109, 1, 13, 23, 31, 30, 0⟩ : Tm).Valid :=
    ⟨by decide, by decide, by decide, by decide, by decide⟩
  have hiff := @time_roundTrips_iff (fun _ => ⟨109, 1, 13, 23, 31, 30, 0⟩) 1234567890 hv (by decide)
  exact ⟨hv, by decide, hiff.mpr ⟨by decide, by decide, by decide⟩⟩

end Slurm.ParseTime
