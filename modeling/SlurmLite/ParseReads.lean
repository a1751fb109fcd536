import SlurmLite.ParseDate

/-!
# Reads of `parse_time`

`parse_time` again, with every character it reads: a string and its NUL are what there is
to read, and a read behind the NUL is an end of its own. The turns of the loop look ahead
before they know where the text ends: a number at a date or a clock time, `now` at a
position that is added to its own.

* **Reading** (`parseTimeIn`): the functions of `ParseDate`, each read checked.
* **Tracking** (`Tracks`): a checked reader does what the unchecked one does, as long as
  it stays inside.
* **Turns** (`turn_tracks`, `turn_overreads`): the turns that stay inside, and the others.
* **Result** (`readsInside_iff`, `parseTimeIn_tracks`): the texts that are read inside, and
  that the check then changes nothing.
-/

namespace Slurm.ParseTime

open Base.CLib

/-! ## Reading -/

/-- Why a checked scan ends early. -/
inductive Halt
  | stop (s : Stop)
  | overread (pos : Nat)
deriving DecidableEq

/-- `time_str[i]`. -/
def charAt (text : List Char) (i : Nat) : Except Halt Char :=
  if i ≤ text.length then .ok (memOf text i) else .error (.overread i)

/-- `goto prob`. -/
def probAt {α : Type} (pos : Nat) : Except Halt α := .error (.stop (.prob pos))

/-- `strncasecmp(time_str + pos, word, n) == 0`, which compares up to the first difference. -/
def startsWithIn (text : List Char) (pos : Nat) : List Char → Except Halt Bool
  | [] => pure true
  | c :: word => do
    let x ← charAt text pos
    if x.toLower == c then startsWithIn text (pos + 1) word else pure false

/-- The digit at a position. -/
def digitIn (text : List Char) (pos : Nat) : Except Halt Int := do
  let c ← charAt text pos
  if c.isDigit then pure (c.toNat - 48) else probAt pos

/-- `while (isspace(time_str[offset])) offset++`. -/
def skipSpaceIn (text : List Char) : Nat → Nat → Except Halt Nat
  | 0, _ => .error (.stop .endless)
  | fuel + 1, pos => do
    let c ← charAt text pos
    if isspace c then skipSpaceIn text fuel (pos + 1) else pure pos

/-- The loop of `_get_delta`. -/
def deltaLoopIn (text : List Char) : Nat → Nat → Int → Nat → Except Halt (Int × Nat × Nat)
  | 0, _, _, _ => .error (.stop .endless)
  | fuel + 1, pos, cnt, digit => do
    let c ← charAt text pos
    if c = '\x00' ∨ c = '\n' then pure (cnt, digit, pos)
    else if isspace c then deltaLoopIn text fuel (pos + 1) cnt digit
    else
      if ← startsWithIn text pos "minutes".toList then pure (cnt * 60, digit, pos + 7)
      else if ← startsWithIn text pos "hours".toList then pure (cnt * (60 * 60), digit, pos + 5)
      else if ← startsWithIn text pos "days".toList then
        pure (cnt * (24 * 60 * 60), digit, pos + 4)
      else if ← startsWithIn text pos "weeks".toList then
        pure (cnt * (7 * 24 * 60 * 60), digit, pos + 5)
      else if c.isDigit then
        deltaLoopIn text fuel (pos + 1) (cnt * 10 + (c.toNat - 48)) (digit + 1)
      else probAt (pos - 1)

/-- `_get_delta`. -/
def getDeltaIn (text : List Char) (fuel pos : Nat) : Except Halt (Nat × Int) := do
  let (cnt, digit, offset) ← deltaLoopIn text fuel (pos + 1) 0 0
  if digit = 0 then probAt pos else pure (offset - 1, cnt)

/-- `_get_time`. -/
def getTimeIn (text : List Char) (fuel pos : Nat) : Except Halt (Nat × Int × Int × Int) := do
  let hr := (← digitIn text pos) * 10 + (← digitIn text (pos + 1))
  if hr > 23 then probAt pos
  if (← charAt text (pos + 2)) ≠ ':' then probAt (pos + 2)
  let min := (← digitIn text (pos + 3)) * 10 + (← digitIn text (pos + 4))
  if min > 59 then probAt (pos + 3)
  let (sec, offset) ←
    if (← charAt text (pos + 5)) = ':' then do
      let sec := (← digitIn text (pos + 6)) * 10 + (← digitIn text (pos + 7))
      if sec > 59 then probAt (pos + 6) else pure (sec, pos + 8)
    else pure (0, pos + 5)
  let offset ← skipSpaceIn text fuel offset
  if ← startsWithIn text offset "pm".toList then
    if hr + 12 > 23 then
      if hr + 12 = 24 then pure (offset + 1, 12, min, sec) else probAt offset
    else pure (offset + 1, hr + 12, min, sec)
  else if ← startsWithIn text offset "am".toList then
    if hr > 11 then
      if hr = 12 then pure (offset + 1, 0, min, sec) else probAt offset
    else pure (offset + 1, hr, min, sec)
  else pure (offset - 1, hr, min, sec)

/-- One digit, or two when another follows. -/
def oneOrTwoIn (text : List Char) (pos : Nat) (first : Int) : Except Halt (Int × Nat) := do
  let c ← charAt text (pos + 1)
  if c.isDigit then pure (first * 10 + (c.toNat - 48), pos + 2) else pure (first, pos + 1)

/-- A `.` or a `/` is passed. -/
def passSeparator (text : List Char) (offset : Nat) : Except Halt Nat := do
  let c ← charAt text offset
  if c = '.' then pure (offset + 1)
  else
    let c ← charAt text offset
    if c = '/' then pure (offset + 1) else pure offset

/-- The test for the form with the year first, which reads four and seven characters ahead. -/
def yearFirst (text : List Char) (pos : Nat) : Except Halt Bool := do
  if (← charAt text (pos + 4)) = '-' then
    if (← charAt text (pos + 7)) = '-' then pure true else pure false
  else pure false

/-- `_get_date`. -/
def getDateIn (text : List Char) (pos : Nat) : Except Halt (Nat × Int × Int × Option Int) := do
  if ← yearFirst text pos then
    let y1 ← digitIn text pos
    let y2 ← digitIn text (pos + 1)
    let y3 ← digitIn text (pos + 2)
    let y4 ← digitIn text (pos + 3)
    let c ← charAt text (pos + 5)
    let (mon, offset) ← oneOrTwoIn text (pos + 5) (c.toNat - 48)
    if mon < 1 ∨ mon > 12 then probAt (offset - 2)
    let d ← digitIn text (offset + 1)
    let (day, offset) ← oneOrTwoIn text (offset + 1) d
    if day < 1 ∨ day > 31 then probAt (offset - 2)
    pure (offset - 1, mon - 1, day, some (((y1 * 10 + y2) * 10 + y3) * 10 + y4 - 1900))
  else
    let c ← charAt text pos
    let (mon, offset) ← oneOrTwoIn text pos (c.toNat - 48)
    if mon < 1 ∨ mon > 12 then probAt (offset - 2)
    let offset ← passSeparator text offset
    let d ← digitIn text offset
    let (day, offset) ← oneOrTwoIn text offset d
    if day < 1 ∨ day > 31 then probAt (offset - 2)
    let offset ← passSeparator text offset
    let c ← charAt text offset
    if c.isDigit then
      let yr := (c.toNat - 48 : Int) * 10 + (← digitIn text (offset + 1))
      pure (offset + 1, mon - 1, day, if yr ≠ 0 then some (yr + 100) else none)
    else pure (offset - 1, mon - 1, day, none)

/-- The scan behind `now`. -/
def nowLoopIn (text : List Char) (size : Nat) : Nat → Nat → Nat → Except Halt (Nat × Int)
  | 0, _, _ => .error (.stop .endless)
  | fuel + 1, pos, i => do
    let c ← charAt text i
    if c = '+' then getDeltaIn text size (pos + i)
    else if isblank c then nowLoopIn text size fuel pos (i + 1)
    else if c = '\x00' ∨ c = '\n' then pure (pos + (i - 1), 0)
    else probAt (pos + i)

/-- One turn of the loop of `parse_time`. -/
def stepIn (localtime : Int → Tm) (now : Int) (text : List Char) (fuel pos : Nat) (f : Fields) :
    Except Halt (Nat × Fields) := do
  let c ← charAt text pos
  if isblank c ∨ c = '-' ∨ c = 'T' then pure (pos, f)
  else if ← startsWithIn text pos "today".toList then pure (pos + 4, f.setDate f.buf)
  else if ← startsWithIn text pos "tomorrow".toList then
    pure (pos + 7, f.setDate (localtime (now + 24 * 60 * 60)))
  else if ← startsWithIn text pos "midnight".toList then
    pure (pos + 7, { f with hour := 0, minute := 0, second := 0 })
  else if ← startsWithIn text pos "noon".toList then
    pure (pos + 3, { f with hour := 12, minute := 0 })
  else if ← startsWithIn text pos "teatime".toList then
    pure (pos + 6, { f with hour := 16, minute := 0 })
  else if ← startsWithIn text pos "now".toList then
    let (pos, delta) ← nowLoopIn text fuel fuel pos (pos + 3)
    let later := localtime (now + delta)
    pure (pos, { f.setDate later with
      hour := later.hour, minute := later.min, second := later.sec })
  else if ¬ c.isDigit then probAt pos
  else if (← charAt text (pos + 2)) = ':' then
    let (pos, hour, minute, second) ← getTimeIn text fuel pos
    pure (pos, { f with hour := hour, minute := minute, second := second })
  else
    let (pos, month, mday, year) ← getDateIn text pos
    pure (pos, { f with month := month, mday := mday, year := year.getD f.year })

/-- The loop of `parse_time`. -/
def scanIn (localtime : Int → Tm) (now : Int) (text : List Char) (size : Nat) :
    Nat → Nat → Fields → Except Halt Fields
  | 0, _, _ => .error (.stop .endless)
  | fuel + 1, pos, f => do
    let c ← charAt text pos
    if c = '\x00' ∨ c = '\n' then pure f
    else
      let (pos, f) ← stepIn localtime now text size pos f
      scanIn localtime now text size fuel (pos + 1) f

/-- The variables `parse_time` starts with. -/
def Fields.start (localtime : Int → Tm) (now : Int) : Fields :=
  ⟨-1, -1, 0, -1, -1, -1, localtime now⟩

/-- `parse_time` of a string. -/
def parseTimeIn (localtime : Int → Tm) (now : Int) (past : Bool) (text : List Char) :
    Except Halt Answer := do
  let f ← scanIn localtime now text (text.length + 1) (text.length + 1) 0
    (Fields.start localtime now)
  if f.hour = -1 ∧ f.month = -1 then pure .zero
  else
    let f := (f.soonest localtime now past).withYear past
    pure (.mktime ⟨f.year, f.month, f.mday, f.hour, f.minute, f.second, -1⟩)

/-! ## Tracking -/

/-- The checked reader ends as the unchecked one does, with `Q` where that has a value; and
that one has not run out of rounds. -/
def Tracks {α : Type} (x : Except Halt α) (y : Except Stop α) (Q : α → Prop) : Prop :=
  match y with
  | .ok a => x = .ok a ∧ Q a
  | .error e => x = .error (.stop e) ∧ e ≠ .endless

namespace Tracks

theorem pure {α : Type} {a : α} {Q : α → Prop} (h : Q a) :
    Tracks (Pure.pure a) (Except.ok a) Q := ⟨rfl, h⟩

theorem prob {α : Type} {pos : Nat} {Q : α → Prop} :
    Tracks (probAt pos) (.error (.prob pos)) Q := ⟨rfl, nofun⟩

theorem prob_bind {α β : Type} {pos : Nat} {f : α → Except Halt β} {g : α → Except Stop β}
    {Q : β → Prop} : Tracks (probAt pos >>= f) (.error (.prob pos) >>= g) Q := ⟨rfl, nofun⟩

theorem bind {α β : Type} {x : Except Halt α} {y : Except Stop α} {f : α → Except Halt β}
    {g : α → Except Stop β} {P : α → Prop} {Q : β → Prop} (hx : Tracks x y P)
    (hf : ∀ a, P a → Tracks (f a) (g a) Q) : Tracks (x >>= f) (y >>= g) Q := by
  cases y with
  | ok a =>
    obtain ⟨rfl, ha⟩ := hx
    exact hf a ha
  | error e =>
    obtain ⟨rfl, he⟩ := hx
    exact ⟨rfl, he⟩

theorem ite {α : Type} {c : Prop} [Decidable c] {x x' : Except Halt α} {y y' : Except Stop α}
    {Q : α → Prop} (h : c → Tracks x y Q) (h' : ¬ c → Tracks x' y' Q) :
    Tracks (if c then x else x') (if c then y else y') Q := by
  split
  · rename_i hc
    exact h hc
  · rename_i hc
    exact h' hc

theorem mono {α : Type} {x : Except Halt α} {y : Except Stop α} {P Q : α → Prop}
    (h : Tracks x y P) (hPQ : ∀ a, P a → Q a) : Tracks x y Q := by
  cases y with
  | ok a => exact ⟨h.1, hPQ a h.2⟩
  | error e => exact h

end Tracks

section Inside

variable {text : List Char} {pos fuel : Nat}

/-- A read inside gives the character. -/
theorem charAt_bind {α : Type} (h : pos ≤ text.length) (f : Char → Except Halt α) :
    (charAt text pos >>= f) = f (memOf text pos) := by
  rw [charAt, if_pos h]
  rfl

theorem memOf_length (text : List Char) : memOf text text.length = '\x00' := (holds_memOf text).2

/-- What is not the NUL has something behind it. -/
theorem lt_of_ne_nul (h : pos ≤ text.length) (hne : memOf text pos ≠ '\x00') :
    pos < text.length := by
  apply Nat.lt_of_le_of_ne h
  intro heq
  rw [heq, memOf_length] at hne
  exact hne rfl

theorem lt_of_isDigit (h : pos ≤ text.length) (hd : (memOf text pos).isDigit = true) :
    pos < text.length := by
  apply lt_of_ne_nul h
  intro hnul
  rw [hnul] at hd
  cases hd

theorem digitIn_tracks (h : pos ≤ text.length) :
    Tracks (digitIn text pos) (digitAt (memOf text) pos) fun _ => pos < text.length := by
  rw [digitIn, charAt_bind h, digitAt]
  apply Tracks.ite
  · intro hd
    exact Tracks.pure (lt_of_isDigit h hd)
  · intro _
    exact Tracks.prob

/-- A word is compared inside, and stands inside where it is found. -/
theorem startsWithIn_eq (word : List Char) (hword : '\x00' ∉ word) (h : pos ≤ text.length) :
    startsWithIn text pos word = .ok (startsWith (memOf text) pos word) ∧
      (startsWith (memOf text) pos word = true → pos + word.length ≤ text.length) := by
  induction word generalizing pos with
  | nil => exact ⟨rfl, fun _ => h⟩
  | cons c word ih =>
    rw [List.mem_cons, not_or] at hword
    rw [startsWithIn, charAt_bind h, startsWith]
    cases heq : (memOf text pos).toLower == c with
    | false => exact ⟨rfl, fun hfalse => absurd hfalse (by simp)⟩
    | true =>
      have hne : memOf text pos ≠ '\x00' := by
        intro hnul
        rw [hnul, beq_iff_eq] at heq
        exact hword.1 heq
      have hlt := lt_of_ne_nul h hne
      obtain ⟨hrest, hlen⟩ := ih hword.2 hlt
      refine ⟨hrest, ?_⟩
      intro hall
      rw [Bool.true_and] at hall
      have hle := hlen hall
      rw [List.length_cons]
      omega

theorem startsWithIn_bind {α : Type} (word : List Char) (hword : '\x00' ∉ word)
    (h : pos ≤ text.length) (f : Bool → Except Halt α) :
    (startsWithIn text pos word >>= f) = f (startsWith (memOf text) pos word) := by
  rw [(startsWithIn_eq word hword h).1]
  rfl

theorem ok_bind_eq {α β : Type} (a : α) (f : α → Except Halt β) : (Except.ok a >>= f) = f a := rfl

theorem skipSpaceIn_tracks (h : pos ≤ text.length) (hfuel : text.length < pos + fuel) :
    Tracks (skipSpaceIn text fuel pos) (skipSpace (memOf text) fuel pos)
      fun offset => pos ≤ offset ∧ offset ≤ text.length := by
  induction fuel generalizing pos with
  | zero => omega
  | succ fuel ih =>
    rw [skipSpaceIn, charAt_bind h, skipSpace]
    apply Tracks.ite
    · intro hspace
      have hlt : pos < text.length := by
        apply lt_of_ne_nul h
        intro hnul
        rw [hnul] at hspace
        cases hspace
      apply (ih hlt (by omega)).mono
      intro offset hoffset
      omega
    · intro _
      exact Tracks.pure ⟨Nat.le_refl _, h⟩

theorem oneOrTwoIn_tracks {first : Int} (h : pos < text.length) :
    ∃ n offset, oneOrTwoIn text pos first = .ok (n, offset) ∧
      oneOrTwo (memOf text) pos first = (n, offset) ∧ pos < offset ∧ offset ≤ pos + 2 ∧
      offset ≤ text.length := by
  rw [oneOrTwoIn, charAt_bind h, oneOrTwo]
  by_cases hd : (memOf text (pos + 1)).isDigit = true
  · rw [if_pos hd, if_pos hd]
    have hlt := lt_of_isDigit (Nat.succ_le_of_lt h) hd
    exact ⟨_, _, rfl, rfl, by omega, Nat.le_refl _, by omega⟩
  · rw [if_neg hd, if_neg hd]
    exact ⟨_, _, rfl, rfl, Nat.lt_succ_self _, Nat.le_succ _, h⟩

theorem passSeparator_eq (h : pos ≤ text.length) :
    ∃ offset, passSeparator text pos = .ok offset ∧
      (if memOf text pos = '.' ∨ memOf text pos = '/' then pos + 1 else pos) = offset ∧
      pos ≤ offset ∧ offset ≤ text.length := by
  rw [passSeparator, charAt_bind h, charAt_bind h]
  by_cases hsep : memOf text pos = '.' ∨ memOf text pos = '/'
  · have hlt : pos < text.length := by
      apply lt_of_ne_nul h
      intro hnul
      rw [hnul] at hsep
      exact absurd hsep (by decide)
    rw [if_pos hsep]
    refine ⟨pos + 1, ?_, rfl, Nat.le_succ _, hlt⟩
    split
    · rfl
    · rename_i hdot
      rw [if_pos (hsep.resolve_left hdot)]
      rfl
  · rw [not_or] at hsep
    rw [if_neg hsep.1, if_neg hsep.2, if_neg (not_or.mpr hsep)]
    exact ⟨pos, rfl, rfl, Nat.le_refl _, h⟩

/-! ## Forms -/

theorem deltaLoopIn_tracks {cnt : Int} {digit : Nat} (h : pos ≤ text.length)
    (hfuel : text.length < pos + fuel) :
    Tracks (deltaLoopIn text fuel pos cnt digit) (deltaLoop (memOf text) fuel pos cnt digit)
      fun r => pos ≤ r.2.2 ∧ r.2.2 ≤ text.length := by
  induction fuel generalizing pos cnt digit with
  | zero => omega
  | succ fuel ih =>
    rw [deltaLoopIn, charAt_bind h, deltaLoop]
    apply Tracks.ite
    · intro _
      exact Tracks.pure ⟨Nat.le_refl _, h⟩
    · intro hend
      rw [not_or] at hend
      have hlt := lt_of_ne_nul h hend.1
      have hnext {c : Int} {d : Nat} :
          Tracks (deltaLoopIn text fuel (pos + 1) c d) (deltaLoop (memOf text) fuel (pos + 1) c d)
            fun r => pos ≤ r.2.2 ∧ r.2.2 ≤ text.length := by
        apply (ih hlt (by omega)).mono
        intro r hr
        omega
      have hword (word : List Char) (hnul : '\x00' ∉ word) {c : Int} {d n : Nat}
          (hn : word.length = n) (hfound : startsWith (memOf text) pos word = true) :
          Tracks (pure (c, d, pos + n)) (.ok (c, d, pos + n))
            fun r => pos ≤ r.2.2 ∧ r.2.2 ≤ text.length := by
        have hle := (startsWithIn_eq word hnul h).2 hfound
        exact Tracks.pure ⟨Nat.le_add_right _ _, by show pos + n ≤ _; omega⟩
      apply Tracks.ite
      · intro _
        exact hnext
      · intro _
        rw [startsWithIn_bind _ (by decide) h]
        apply Tracks.ite
        · exact hword _ (by decide) rfl
        · intro _
          rw [startsWithIn_bind _ (by decide) h]
          apply Tracks.ite
          · exact hword _ (by decide) rfl
          · intro _
            rw [startsWithIn_bind _ (by decide) h]
            apply Tracks.ite
            · exact hword _ (by decide) rfl
            · intro _
              rw [startsWithIn_bind _ (by decide) h]
              apply Tracks.ite
              · exact hword _ (by decide) rfl
              · intro _
                apply Tracks.ite
                · intro _
                  exact hnext
                · intro _
                  exact Tracks.prob

/-- A difference behind a `+` that is inside. -/
theorem getDeltaIn_tracks (h : pos < text.length) (hfuel : text.length < pos + 1 + fuel) :
    Tracks (getDeltaIn text fuel pos) (getDelta (memOf text) fuel pos)
      fun r => pos ≤ r.1 ∧ r.1 + 1 ≤ text.length := by
  rw [getDeltaIn, getDelta]
  apply Tracks.bind (deltaLoopIn_tracks h hfuel)
  intro r hr
  obtain ⟨cnt, digit, offset⟩ := r
  apply Tracks.ite
  · intro _
    exact Tracks.prob
  · intro _
    apply Tracks.pure
    simp only at hr ⊢
    omega

/-- The end of a clock time: blanks and `am` or `pm`. -/
theorem meridiem_tracks {start : Nat} {hr min sec : Int} (h : pos ≤ text.length)
    (hstart : start < pos) (hfuel : text.length < pos + fuel) :
    Tracks
      (do
        let offset ← skipSpaceIn text fuel pos
        if ← startsWithIn text offset "pm".toList then
          if hr + 12 > 23 then
            if hr + 12 = 24 then pure (offset + 1, 12, min, sec) else probAt offset
          else pure (offset + 1, hr + 12, min, sec)
        else if ← startsWithIn text offset "am".toList then
          if hr > 11 then
            if hr = 12 then pure (offset + 1, 0, min, sec) else probAt offset
          else pure (offset + 1, hr, min, sec)
        else pure (offset - 1, hr, min, sec))
      (do
        let offset ← skipSpace (memOf text) fuel pos
        if startsWith (memOf text) offset "pm".toList then
          if hr + 12 > 23 then
            if hr + 12 = 24 then pure (offset + 1, 12, min, sec) else .error (.prob offset)
          else pure (offset + 1, hr + 12, min, sec)
        else if startsWith (memOf text) offset "am".toList then
          if hr > 11 then
            if hr = 12 then pure (offset + 1, 0, min, sec) else .error (.prob offset)
          else pure (offset + 1, hr, min, sec)
        else pure (offset - 1, hr, min, sec))
      fun r => start ≤ r.1 ∧ r.1 + 1 ≤ text.length := by
  apply Tracks.bind (skipSpaceIn_tracks h hfuel)
  intro offset hoffset
  have hin := hoffset.2
  rw [startsWithIn_bind _ (by decide) hin]
  have hfound (word : List Char) (hnul : '\x00' ∉ word) (hlen : word.length = 2)
      (heq : startsWith (memOf text) offset word = true) (x y z : Int) :
      Tracks (pure (offset + 1, x, y, z)) (.ok (offset + 1, x, y, z))
        fun r => start ≤ r.1 ∧ r.1 + 1 ≤ text.length := by
    have hle := (startsWithIn_eq word hnul hin).2 heq
    exact Tracks.pure ⟨by show start ≤ offset + 1; omega, by show offset + 1 + 1 ≤ _; omega⟩
  apply Tracks.ite
  · intro heq
    apply Tracks.ite
    · intro _
      apply Tracks.ite
      · intro _
        exact hfound _ (by decide) rfl heq _ _ _
      · intro _
        exact Tracks.prob
    · intro _
      exact hfound _ (by decide) rfl heq _ _ _
  · intro _
    rw [startsWithIn_bind _ (by decide) hin]
    apply Tracks.ite
    · intro heq
      apply Tracks.ite
      · intro _
        apply Tracks.ite
        · intro _
          exact hfound _ (by decide) rfl heq _ _ _
        · intro _
          exact Tracks.prob
      · intro _
        exact hfound _ (by decide) rfl heq _ _ _
    · intro _
      exact Tracks.pure ⟨by show start ≤ offset - 1; omega, by show offset - 1 + 1 ≤ _; omega⟩

/-- A clock time. -/
theorem getTimeIn_tracks (h : pos ≤ text.length) (hfuel : text.length < fuel) :
    Tracks (getTimeIn text fuel pos) (getTime (memOf text) fuel pos)
      fun r => pos ≤ r.1 ∧ r.1 + 1 ≤ text.length := by
  rw [getTimeIn, getTime]
  apply Tracks.bind (digitIn_tracks h)
  intro h1 hlt1
  apply Tracks.bind (digitIn_tracks hlt1)
  intro h2 hlt2
  dsimp only
  apply Tracks.ite
  · intro _
    exact Tracks.prob_bind
  · intro _
    rw [charAt_bind hlt2]
    apply Tracks.ite
    · intro _
      exact Tracks.prob_bind
    · intro hcolon
      have hlt3 : pos + 2 < text.length := by
        apply lt_of_ne_nul hlt2
        rw [not_not.mp hcolon]
        decide
      apply Tracks.bind (digitIn_tracks hlt3)
      intro m1 hlt4
      apply Tracks.bind (digitIn_tracks hlt4)
      intro m2 hlt5
      apply Tracks.ite
      · intro _
        exact Tracks.prob_bind
      · intro _
        rw [charAt_bind hlt5]
        apply Tracks.ite
        · intro hsecond
          have hlt6 : pos + 5 < text.length := by
            apply lt_of_ne_nul hlt5
            rw [hsecond]
            decide
          apply Tracks.bind (digitIn_tracks hlt6)
          intro s1 hlt7
          apply Tracks.bind (digitIn_tracks hlt7)
          intro s2 hlt8
          apply Tracks.ite
          · intro _
            exact Tracks.prob_bind
          · intro _
            exact meridiem_tracks hlt8 (by omega) (by omega)
        · intro _
          exact meridiem_tracks hlt5 (by omega) (by omega)

theorem yearFirst_eq (h4 : pos + 4 ≤ text.length)
    (h7 : memOf text (pos + 4) = '-' → pos + 7 ≤ text.length) :
    yearFirst text pos =
      .ok (decide (memOf text (pos + 4) = '-' ∧ memOf text (pos + 7) = '-')) := by
  rw [yearFirst, charAt_bind h4]
  by_cases hfirst : memOf text (pos + 4) = '-'
  · rw [if_pos hfirst, charAt_bind (h7 hfirst)]
    by_cases hsecond : memOf text (pos + 7) = '-'
    · simp [hfirst, hsecond]
      rfl
    · simp [hfirst, hsecond]
      rfl
  · rw [if_neg hfirst]
    simp [hfirst]
    rfl

/-- A date, with what it looks ahead at inside. -/
theorem getDateIn_tracks (hd : (memOf text pos).isDigit = true) (h4 : pos + 4 ≤ text.length)
    (h7 : memOf text (pos + 4) = '-' → pos + 7 ≤ text.length) :
    Tracks (getDateIn text pos) (getDate (memOf text) pos)
      fun r => pos ≤ r.1 ∧ r.1 + 1 ≤ text.length := by
  rw [getDateIn, getDate, yearFirst_eq h4 h7]
  show Tracks (if decide (memOf text (pos + 4) = '-' ∧ memOf text (pos + 7) = '-') = true
    then _ else _) _ _
  by_cases hform : memOf text (pos + 4) = '-' ∧ memOf text (pos + 7) = '-'
  · -- yyyy-mm-dd: the '-' at pos+7 is no NUL, so the year and the month are inside
    rw [if_pos (decide_eq_true hform), if_pos hform]
    have hlt7 : pos + 7 < text.length := by
      apply lt_of_ne_nul (h7 hform.1)
      rw [hform.2]
      decide
    apply Tracks.bind (digitIn_tracks (by omega))
    intro y1 _
    apply Tracks.bind (digitIn_tracks (by omega))
    intro y2 _
    apply Tracks.bind (digitIn_tracks (by omega))
    intro y3 _
    apply Tracks.bind (digitIn_tracks (by omega))
    intro y4 _
    rw [charAt_bind (by omega)]
    obtain ⟨mon, offset, hmon, hmon', hlo, htwo, hhi⟩ := @oneOrTwoIn_tracks text (pos + 5)
      ((memOf text (pos + 5)).toNat - 48) (by omega)
    rw [hmon, hmon', ok_bind_eq]
    dsimp only
    apply Tracks.ite
    · intro _
      exact Tracks.prob_bind
    · intro _
      apply Tracks.bind (digitIn_tracks (by omega))
      intro d hltd
      obtain ⟨day, offset', hday, hday', hlo', -, hhi'⟩ := @oneOrTwoIn_tracks text (offset + 1) d
        hltd
      rw [hday, hday', ok_bind_eq]
      dsimp only
      apply Tracks.ite
      · intro _
        exact Tracks.prob_bind
      · intro _
        exact Tracks.pure ⟨by show pos ≤ offset' - 1; omega, by show offset' - 1 + 1 ≤ _; omega⟩
  · -- mm/dd/yy: each character looked at follows one that is no NUL
    rw [if_neg (by simpa using hform), if_neg hform]
    have hlt := lt_of_isDigit (by omega) hd
    rw [charAt_bind (by omega)]
    obtain ⟨mon, offset, hmon, hmon', hlo, htwo, hhi⟩ := @oneOrTwoIn_tracks text pos
      ((memOf text pos).toNat - 48) hlt
    rw [hmon, hmon', ok_bind_eq]
    dsimp only
    apply Tracks.ite
    · intro _
      exact Tracks.prob_bind
    · intro _
      obtain ⟨at', hpass, hpass', hle, hin⟩ := passSeparator_eq hhi
      rw [hpass, hpass', ok_bind_eq]
      apply Tracks.bind (digitIn_tracks hin)
      intro d hltd
      obtain ⟨day, offset', hday, hday', hlo', -, hhi'⟩ := @oneOrTwoIn_tracks text at' d hltd
      rw [hday, hday', ok_bind_eq]
      dsimp only
      apply Tracks.ite
      · intro _
        exact Tracks.prob_bind
      · intro _
        obtain ⟨last, hpass2, hpass2', hle2, hin2⟩ := passSeparator_eq hhi'
        rw [hpass2, hpass2', ok_bind_eq, charAt_bind hin2]
        apply Tracks.ite
        · intro hyear
          have hlt2 := lt_of_isDigit hin2 hyear
          apply Tracks.bind (digitIn_tracks hlt2)
          intro y hlty
          exact Tracks.pure ⟨by show pos ≤ last + 1; omega, hlty⟩
        · intro _
          exact Tracks.pure ⟨by show pos ≤ last - 1; omega, by show last - 1 + 1 ≤ _; omega⟩

/-- What the scan behind `now` does at `i`, where the blanks end. -/
def nowEndIn (text : List Char) (size pos i : Nat) : Except Halt (Nat × Int) :=
  if memOf text i = '+' then getDeltaIn text size (pos + i)
  else if memOf text i = '\x00' ∨ memOf text i = '\n' then pure (pos + (i - 1), 0)
  else probAt (pos + i)

/-- The same, unchecked. -/
def nowEnd (mem : Nat → Char) (size pos i : Nat) : Except Stop (Nat × Int) :=
  if mem i = '+' then getDelta mem size (pos + i)
  else if mem i = '\x00' ∨ mem i = '\n' then .ok (pos + (i - 1), 0)
  else .error (.prob (pos + i))

/-- The blanks behind `now` end inside. -/
theorem nowLoopIn_eq {size start : Nat} (h : start ≤ text.length)
    (hfuel : text.length < start + fuel) :
    ∃ i, start ≤ i ∧ i ≤ text.length ∧
      (∀ j, start ≤ j → j < i → isblank (memOf text j) = true) ∧
      ¬ isblank (memOf text i) = true ∧
      nowLoopIn text size fuel pos start = nowEndIn text size pos i ∧
      nowLoop (memOf text) size fuel pos start = nowEnd (memOf text) size pos i := by
  induction fuel generalizing start with
  | zero => omega
  | succ fuel ih =>
    rw [nowLoopIn, charAt_bind h, nowLoop]
    by_cases hblank : isblank (memOf text start) = true
    · have hplus : memOf text start ≠ '+' := by
        intro heq
        rw [heq] at hblank
        cases hblank
      have hlt : start < text.length := by
        apply lt_of_ne_nul h
        intro hnul
        rw [hnul] at hblank
        cases hblank
      obtain ⟨i, hlo, hhi, hrun, hstop, hchecked, hplain⟩ := ih hlt (by omega)
      rw [if_neg hplus, if_pos hblank, if_neg hplus, if_pos hblank]
      refine ⟨i, by omega, hhi, ?_, hstop, hchecked, hplain⟩
      intro j hj hji
      by_cases heq : j = start
      · rw [heq]
        exact hblank
      · exact hrun j (by omega) hji
    · rw [if_neg hblank, if_neg hblank]
      exact ⟨start, Nat.le_refl _, h, fun j hj hji => by omega, hblank, rfl, rfl⟩

end Inside

/-! ## Turns -/

/-- A turn at `pos` looks ahead inside. At a digit it needs the two characters after it and,
unless the second is a `:`, two more, and then, if the last is a `-`, three more. Behind
`now` and blanks, a `+` or the end is at a position that has to be inside once more when
`pos` is added to it. -/
structure LooksInside (text : List Char) (pos : Nat) : Prop where
  number : (memOf text pos).isDigit = true → pos + 2 ≤ text.length ∧
    (memOf text (pos + 2) ≠ ':' → pos + 4 ≤ text.length ∧
      (memOf text (pos + 4) = '-' → pos + 7 ≤ text.length))
  now : startsWith (memOf text) pos "now".toList = true → ∀ i, pos + 3 ≤ i →
    (∀ j, pos + 3 ≤ j → j < i → isblank (memOf text j) = true) →
      (memOf text i = '+' → pos + i < text.length) ∧
        (memOf text i = '\x00' ∨ memOf text i = '\n' → pos + i ≤ text.length)

section Turns

variable {localtime : Int → Tm} {now : Int} {text : List Char} {pos size : Nat} {f : Fields}

theorem nowEndIn_tracks {i : Nat} (hlo : pos + 3 ≤ i) (hsize : text.length < size)
    (hplus : memOf text i = '+' → pos + i < text.length)
    (hend : memOf text i = '\x00' ∨ memOf text i = '\n' → pos + i ≤ text.length) :
    Tracks (nowEndIn text size pos i) (nowEnd (memOf text) size pos i)
      fun r => pos ≤ r.1 ∧ r.1 + 1 ≤ text.length := by
  apply Tracks.ite
  · intro heq
    apply (getDeltaIn_tracks (hplus heq) (by omega)).mono
    intro r hr
    omega
  · intro _
    apply Tracks.ite
    · intro heq
      have hle := hend heq
      exact Tracks.pure ⟨by show pos ≤ pos + (i - 1); omega, by show pos + (i - 1) + 1 ≤ _; omega⟩
    · intro _
      exact Tracks.prob

/-- A turn that looks ahead inside does what it does without the check, and comes to a
position inside. -/
theorem turn_tracks (h : pos < text.length) (hsize : text.length < size)
    (hlook : LooksInside text pos) :
    Tracks (stepIn localtime now text size pos f) (step localtime now (memOf text) size pos f)
      fun r => pos ≤ r.1 ∧ r.1 + 1 ≤ text.length := by
  have hin := Nat.le_of_lt h
  -- a word that is found ends before the NUL
  have hword (word : List Char) (n : Nat) (hnul : '\x00' ∉ word)
      (hn : word.length = n + 1)
      {f' : Fields} (heq : startsWith (memOf text) pos word = true) :
      Tracks (pure (pos + n, f')) (.ok (pos + n, f'))
        fun r => pos ≤ r.1 ∧ r.1 + 1 ≤ text.length := by
    have hle := (startsWithIn_eq word hnul hin).2 heq
    exact Tracks.pure ⟨Nat.le_add_right _ _, by show pos + n + 1 ≤ _; omega⟩
  rw [stepIn, charAt_bind hin, step]
  apply Tracks.ite
  · intro _
    exact Tracks.pure ⟨Nat.le_refl _, h⟩
  · intro _
    rw [startsWithIn_bind _ (by decide) hin]
    apply Tracks.ite
    · exact hword "today".toList 4 (by decide) rfl
    · intro _
      rw [startsWithIn_bind _ (by decide) hin]
      apply Tracks.ite
      · exact hword "tomorrow".toList 7 (by decide) rfl
      · intro _
        rw [startsWithIn_bind _ (by decide) hin]
        apply Tracks.ite
        · exact hword "midnight".toList 7 (by decide) rfl
        · intro _
          rw [startsWithIn_bind _ (by decide) hin]
          apply Tracks.ite
          · exact hword "noon".toList 3 (by decide) rfl
          · intro _
            rw [startsWithIn_bind _ (by decide) hin]
            apply Tracks.ite
            · exact hword "teatime".toList 6 (by decide) rfl
            · intro _
              rw [startsWithIn_bind _ (by decide) hin]
              apply Tracks.ite
              · intro hnow
                -- the loop behind it ends inside, the position made of its end by `hlook`
                have hthree := (startsWithIn_eq "now".toList (by decide) hin).2 hnow
                obtain ⟨i, hlo, hhi, hrun, -, hchecked, hplain⟩ :=
                  @nowLoopIn_eq text pos size size (pos + 3) hthree (by omega)
                obtain ⟨hplus, hend⟩ := hlook.now hnow i hlo hrun
                rw [hchecked, hplain]
                apply Tracks.bind (nowEndIn_tracks hlo hsize hplus hend)
                intro r hr
                exact Tracks.pure hr
              · intro _
                apply Tracks.ite
                · intro _
                  exact Tracks.prob
                · intro hdigit
                  have hd := not_not.mp hdigit
                  obtain ⟨htwo, hdate⟩ := hlook.number hd
                  rw [charAt_bind htwo]
                  apply Tracks.ite
                  · intro _
                    apply Tracks.bind (getTimeIn_tracks hin hsize)
                    intro r hr
                    exact Tracks.pure hr
                  · intro hcolon
                    obtain ⟨hfour, hseven⟩ := hdate hcolon
                    apply Tracks.bind (getDateIn_tracks hd hfour hseven)
                    intro r hr
                    exact Tracks.pure hr

/-- A digit is no blank and begins no word. -/
theorem stepIn_digit (h : pos ≤ text.length) (hd : (memOf text pos).isDigit = true) :
    stepIn localtime now text size pos f =
      (charAt text (pos + 2) >>= fun c =>
        if c = ':' then do
          let (pos, hour, minute, second) ← getTimeIn text size pos
          pure (pos, { f with hour := hour, minute := minute, second := second })
        else do
          let (pos, month, mday, year) ← getDateIn text pos
          pure (pos, { f with month := month, mday := mday, year := year.getD f.year })) := by
  have hblank : ¬(isblank (memOf text pos) = true ∨ memOf text pos = '-' ∨
      memOf text pos = 'T') := by
    simp [isblank, ne_of_isDigit hd]
  have hword (word : List Char) (hnul : '\x00' ∉ word)
      (hw : (word.head?.map Char.isDigit) = some false) {α : Type} (g : Bool → Except Halt α) :
      (startsWithIn text pos word >>= g) = g false := by
    rw [startsWithIn_bind _ hnul h]
    cases word with
    | nil => cases hw
    | cons c word => rw [startsWith_digit word hd (Option.some.inj hw)]
  rw [stepIn, charAt_bind h, if_neg hblank, hword "today".toList (by decide) (by decide),
    if_neg Bool.false_ne_true, hword "tomorrow".toList (by decide) (by decide),
    if_neg Bool.false_ne_true, hword "midnight".toList (by decide) (by decide),
    if_neg Bool.false_ne_true, hword "noon".toList (by decide) (by decide),
    if_neg Bool.false_ne_true, hword "teatime".toList (by decide) (by decide),
    if_neg Bool.false_ne_true, hword "now".toList (by decide) (by decide),
    if_neg Bool.false_ne_true, if_neg (not_not_intro hd)]

/-- `now` is no blank and no other word. -/
theorem stepIn_now (h : pos ≤ text.length)
    (hnow : startsWith (memOf text) pos "now".toList = true) :
    stepIn localtime now text size pos f = (do
      let (pos, delta) ← nowLoopIn text size size pos (pos + 3)
      let later := localtime (now + delta)
      pure (pos, { f.setDate later with
        hour := later.hour, minute := later.min, second := later.sec })) := by
  have hletters : (memOf text pos).toLower = 'n' ∧ (memOf text (pos + 1)).toLower = 'o' ∧
      (memOf text (pos + 2)).toLower = 'w' := by
    simpa [startsWith] using hnow
  obtain ⟨hn, -, hw⟩ := hletters
  have hother (c : Char) (hc : c.toLower ≠ 'n') : memOf text pos ≠ c := by
    intro heq
    rw [heq] at hn
    exact hc hn
  have hblank : ¬(isblank (memOf text pos) = true ∨ memOf text pos = '-' ∨
      memOf text pos = 'T') := by
    simp [isblank, hother]
  have hskip (word : List Char) (hnul : '\x00' ∉ word)
      (hw : startsWith (memOf text) pos word = false) {α : Type} (g : Bool → Except Halt α) :
      (startsWithIn text pos word >>= g) = g false := by
    rw [startsWithIn_bind _ hnul h, hw]
  have hfirst (word : List Char) (hc : (word.head?.map (· == 'n')) = some false) :
      startsWith (memOf text) pos word = false := by
    cases word with
    | nil => cases hc
    | cons c word =>
      have hne : ('n' == c) = false := by
        rw [Bool.beq_comm]
        exact Option.some.inj hc
      rw [startsWith, hn, hne, Bool.false_and]
  have hnoon : startsWith (memOf text) pos "noon".toList = false := by
    simp [startsWith, hw]
  rw [stepIn, charAt_bind h, if_neg hblank,
    hskip "today".toList (by decide) (hfirst _ (by decide)), if_neg Bool.false_ne_true,
    hskip "tomorrow".toList (by decide) (hfirst _ (by decide)), if_neg Bool.false_ne_true,
    hskip "midnight".toList (by decide) (hfirst _ (by decide)), if_neg Bool.false_ne_true,
    hskip "noon".toList (by decide) hnoon, if_neg Bool.false_ne_true,
    hskip "teatime".toList (by decide) (hfirst _ (by decide)), if_neg Bool.false_ne_true,
    startsWithIn_bind _ (by decide) h, if_pos hnow]

theorem charAt_over (h : text.length < pos) : charAt text pos = .error (.overread pos) :=
  if_neg (Nat.not_le.mpr h)

theorem not_now_of_isDigit (hd : (memOf text pos).isDigit = true) :
    ¬ startsWith (memOf text) pos "now".toList = true := by
  have hfalse := @startsWith_digit (memOf text) pos 'n' "ow".toList hd (by decide)
  exact fun hnow => absurd (hfalse.symm.trans hnow) Bool.false_ne_true

/-- A date that looks further reads behind the NUL. -/
theorem getDateIn_overreads (h4 : text.length < pos + 4 ∨
    (memOf text (pos + 4) = '-' ∧ text.length < pos + 7)) :
    ∃ q, getDateIn text pos = .error (.overread q) := by
  by_cases hfour : pos + 4 ≤ text.length
  · obtain ⟨hdash, hseven⟩ := h4.resolve_left (Nat.not_lt.mpr hfour)
    refine ⟨pos + 7, ?_⟩
    rw [getDateIn, yearFirst, charAt_bind hfour, if_pos hdash, charAt_over hseven]
    rfl
  · refine ⟨pos + 4, ?_⟩
    rw [getDateIn, yearFirst, charAt_over (Nat.not_le.mp hfour)]
    rfl

theorem turn_overreads_digit (h : pos ≤ text.length) (hd : (memOf text pos).isDigit = true)
    (hlook : ¬ LooksInside text pos) :
    ∃ q, stepIn localtime now text size pos f = .error (.overread q) := by
  rw [stepIn_digit h hd]
  by_cases htwo : pos + 2 ≤ text.length
  · have hnumber : ¬ (memOf text (pos + 2) ≠ ':' → pos + 4 ≤ text.length ∧
        (memOf text (pos + 4) = '-' → pos + 7 ≤ text.length)) := by
      intro hfits
      exact hlook ⟨fun _ => ⟨htwo, hfits⟩, fun hnow => absurd hnow (not_now_of_isDigit hd)⟩
    rw [Classical.not_imp] at hnumber
    obtain ⟨hcolon, hdate⟩ := hnumber
    have hfar : text.length < pos + 4 ∨
        (memOf text (pos + 4) = '-' ∧ text.length < pos + 7) := by
      by_cases hfour : pos + 4 ≤ text.length
      · right
        by_contra hnot
        exact hdate ⟨hfour, fun hdash => Nat.not_lt.mp fun hlt => hnot ⟨hdash, hlt⟩⟩
      · exact Or.inl (Nat.not_le.mp hfour)
    obtain ⟨q, hq⟩ := @getDateIn_overreads text pos hfar
    rw [charAt_bind htwo, if_neg hcolon, hq]
    exact ⟨q, rfl⟩
  · rw [charAt_over (Nat.not_le.mp htwo)]
    exact ⟨_, rfl⟩

/-- The blanks behind `now` end in one place. -/
theorem looksInside_of_now {i : Nat}
    (hnow : startsWith (memOf text) pos "now".toList = true) (hlo : pos + 3 ≤ i)
    (hrun : ∀ j, pos + 3 ≤ j → j < i → isblank (memOf text j) = true)
    (hstop : ¬ isblank (memOf text i) = true)
    (hplus : memOf text i = '+' → pos + i < text.length)
    (hend : memOf text i = '\x00' ∨ memOf text i = '\n' → pos + i ≤ text.length) :
    LooksInside text pos := by
  constructor
  · intro hd
    exact absurd hnow (not_now_of_isDigit hd)
  · intro _ i' hlo' hrun'
    have hsame (hblank : ¬ isblank (memOf text i') = true) : i' = i := by
      by_contra hne
      cases Nat.lt_or_gt_of_ne hne with
      | inl hlt => exact hblank (hrun i' hlo' hlt)
      | inr hgt => exact hstop (hrun' i hlo hgt)
    constructor
    · intro hc
      obtain rfl := hsame (by rw [hc]; decide)
      exact hplus hc
    · intro hc
      have hblank : ¬ isblank (memOf text i') = true := by
        cases hc with
        | inl hnul => rw [hnul]; decide
        | inr hnewline => rw [hnewline]; decide
      obtain rfl := hsame hblank
      exact hend hc

theorem turn_overreads_now (h : pos ≤ text.length) (hsize : text.length < size)
    (hnow : startsWith (memOf text) pos "now".toList = true)
    (hlook : ¬ LooksInside text pos) :
    (∃ q, stepIn localtime now text size pos f = .error (.overread q)) ∨
      ∃ r, stepIn localtime now text size pos f = .ok r ∧ text.length < r.1 + 1 := by
  have hthree := (startsWithIn_eq "now".toList (by decide) h).2 hnow
  obtain ⟨i, hlo, hhi, hrun, hstop, hchecked, -⟩ :=
    @nowLoopIn_eq text pos size size (pos + 3) hthree (by omega)
  have hinside := looksInside_of_now hnow hlo hrun hstop
  rw [stepIn_now h hnow, hchecked, nowEndIn]
  by_cases hplus : memOf text i = '+'
  · have hend : ¬ (memOf text i = '\x00' ∨ memOf text i = '\n') := by
      rw [hplus]
      decide
    have hover : text.length < pos + i + 1 := by
      by_contra hin
      exact hlook (hinside (fun _ => by omega) (fun hc => absurd hc hend))
    left
    obtain ⟨size, rfl⟩ : ∃ k, size = k + 1 := ⟨size - 1, by omega⟩
    refine ⟨pos + i + 1, ?_⟩
    rw [if_pos hplus, getDeltaIn, deltaLoopIn, charAt_over hover]
    rfl
  · rw [if_neg hplus]
    by_cases hend : memOf text i = '\x00' ∨ memOf text i = '\n'
    · have hover : text.length < pos + i := by
        by_contra hin
        exact hlook (hinside (fun hc => absurd hc hplus) (fun _ => Nat.not_lt.mp hin))
      right
      rw [if_pos hend]
      exact ⟨_, rfl, by show text.length < pos + (i - 1) + 1; omega⟩
    · exact absurd (hinside (fun hc => absurd hc hplus) (fun hc => absurd hc hend)) hlook

/-- A turn that looks further reads behind the NUL, or comes to a position there. -/
theorem turn_overreads (h : pos ≤ text.length) (hsize : text.length < size)
    (hlook : ¬ LooksInside text pos) :
    (∃ q, stepIn localtime now text size pos f = .error (.overread q)) ∨
      ∃ r, stepIn localtime now text size pos f = .ok r ∧ text.length < r.1 + 1 := by
  by_cases hd : (memOf text pos).isDigit = true
  · exact Or.inl (turn_overreads_digit h hd hlook)
  · by_cases hnow : startsWith (memOf text) pos "now".toList = true
    · exact turn_overreads_now h hsize hnow hlook
    · exact absurd ⟨fun hdigit => absurd hdigit hd, fun hn => absurd hn hnow⟩ hlook

end Turns

/-! ## Result -/

/-- The loop of `parse_time` is over. -/
def AtEnd (text : List Char) (pos : Nat) : Prop :=
  memOf text pos = '\x00' ∨ memOf text pos = '\n'

instance (text : List Char) (pos : Nat) : Decidable (AtEnd text pos) :=
  inferInstanceAs (Decidable (_ ∨ _))

/-- A turn of the loop, from a position and the variables to the next ones. -/
def Turn (localtime : Int → Tm) (now : Int) (text : List Char) (a b : Nat × Fields) : Prop :=
  ¬ AtEnd text a.1 ∧ ∃ pos, b.1 = pos + 1 ∧
    step localtime now (memOf text) (text.length + 1) a.1 a.2 = .ok (pos, b.2)

/-- Every turn from `a` on that is begun looks ahead inside. -/
def TurnsInside (localtime : Int → Tm) (now : Int) (text : List Char) (a : Nat × Fields) :
    Prop :=
  ∀ b, Relation.ReflTransGen (Turn localtime now text) a b → ¬ AtEnd text b.1 →
    LooksInside text b.1

section Result

variable {localtime : Int → Tm} {now : Int} {past : Bool} {text : List Char}

theorem TurnsInside.turn {a b : Nat × Fields} (h : TurnsInside localtime now text a)
    (hab : Turn localtime now text a b) : TurnsInside localtime now text b := by
  intro c hbc
  exact h c (Relation.ReflTransGen.head hab hbc)

/-- The first turn, and those of the run behind it. -/
theorem TurnsInside.head {a : Nat × Fields} (hlook : ¬ AtEnd text a.1 → LooksInside text a.1)
    (hrest : ∀ b, Turn localtime now text a b → TurnsInside localtime now text b) :
    TurnsInside localtime now text a := by
  intro b hab hend
  cases Relation.ReflTransGen.cases_head hab with
  | inl heq =>
    rw [← heq] at hend ⊢
    exact hlook hend
  | inr hstep =>
    obtain ⟨c, hac, hcb⟩ := hstep
    exact hrest c hac b hcb hend

/-- A run whose turns look ahead inside is the unchecked run. -/
theorem scanIn_tracks {fuel pos : Nat} {f : Fields} (h : pos ≤ text.length)
    (hfuel : text.length < pos + fuel) (hturns : TurnsInside localtime now text (pos, f)) :
    Tracks (scanIn localtime now text (text.length + 1) fuel pos f)
      (scan localtime now (memOf text) (text.length + 1) fuel pos f) fun _ => True := by
  induction fuel generalizing pos f with
  | zero => omega
  | succ fuel ih =>
    rw [scanIn, charAt_bind h, scan]
    apply Tracks.ite
    · intro _
      exact Tracks.pure trivial
    · intro hend
      have hlook := hturns (pos, f) Relation.ReflTransGen.refl hend
      have hlt : pos < text.length := lt_of_ne_nul h (fun hnul => hend (Or.inl hnul))
      have hturn := @turn_tracks localtime now text pos (text.length + 1) f hlt
        (Nat.lt_succ_self _) hlook
      cases hstep : step localtime now (memOf text) (text.length + 1) pos f with
      | error e =>
        rw [hstep] at hturn
        rw [hturn.1]
        exact ⟨rfl, hturn.2⟩
      | ok r =>
        rw [hstep] at hturn
        obtain ⟨hchecked, hle, hin⟩ := hturn
        rw [hchecked]
        have hnext : Turn localtime now text (pos, f) (r.1 + 1, r.2) :=
          ⟨hend, r.1, rfl, hstep⟩
        exact ih hin (by omega) (hturns.turn hnext)

/-- A run with a turn that looks further reads behind the NUL. -/
theorem scanIn_overreads {fuel pos : Nat} {f : Fields} (h : pos ≤ text.length)
    (hfuel : text.length < pos + fuel) (hturns : ¬ TurnsInside localtime now text (pos, f)) :
    ∃ q, scanIn localtime now text (text.length + 1) fuel pos f = .error (.overread q) := by
  induction fuel generalizing pos f with
  | zero => omega
  | succ fuel ih =>
    have hend : ¬ AtEnd text pos := by
      intro hend
      apply hturns
      exact TurnsInside.head (fun hne => absurd hend hne) fun b hab => absurd hend hab.1
    have hlt : pos < text.length := lt_of_ne_nul h (fun hnul => hend (Or.inl hnul))
    have hscan : scanIn localtime now text (text.length + 1) (fuel + 1) pos f =
        (stepIn localtime now text (text.length + 1) pos f >>= fun r =>
          scanIn localtime now text (text.length + 1) fuel (r.1 + 1) r.2) := by
      rw [scanIn, charAt_bind h]
      exact if_neg hend
    rw [hscan]
    by_cases hlook : LooksInside text pos
    · -- the fault is in a later turn
      obtain ⟨b, hturn, hrest⟩ : ∃ b, Turn localtime now text (pos, f) b ∧
          ¬ TurnsInside localtime now text b := by
        by_contra hnone
        apply hturns
        apply TurnsInside.head (fun _ => hlook)
        intro b hab
        by_contra hb
        exact hnone ⟨b, hab, hb⟩
      obtain ⟨-, pos', hpos', hstep⟩ := hturn
      obtain ⟨b1, b2⟩ := b
      simp only at hpos' hstep
      subst hpos'
      have htracks := @turn_tracks localtime now text pos (text.length + 1) f hlt
        (Nat.lt_succ_self _) hlook
      rw [hstep] at htracks
      obtain ⟨hchecked, hle, hin⟩ := htracks
      rw [hchecked]
      exact ih hin (by simp only at hle; omega) hrest
    · cases @turn_overreads localtime now text pos (text.length + 1) f h
        (Nat.lt_succ_self _) hlook with
      | inl hfault =>
        obtain ⟨q, hq⟩ := hfault
        rw [hq]
        exact ⟨q, rfl⟩
      | inr hbehind =>
        obtain ⟨r, hr, hover⟩ := hbehind
        obtain ⟨fuel, rfl⟩ : ∃ k, fuel = k + 1 := ⟨fuel - 1, by omega⟩
        rw [hr, ok_bind_eq, scanIn, charAt_over hover]
        exact ⟨_, rfl⟩

/-- The text is read inside: no read is behind the NUL. -/
def ReadsInside (localtime : Int → Tm) (now : Int) (past : Bool) (text : List Char) : Prop :=
  ∀ pos, parseTimeIn localtime now past text ≠ .error (.overread pos)

/-- Where all turns look ahead inside, the check changes nothing and the text is read to an
answer or an error. -/
theorem parseTimeIn_tracks
    (hturns : TurnsInside localtime now text (0, Fields.start localtime now)) :
    Tracks (parseTimeIn localtime now past text)
      (parseTime localtime now past (memOf text) (text.length + 1)) fun _ => True := by
  rw [parseTimeIn, parseTime]
  apply Tracks.bind (scanIn_tracks (Nat.zero_le _) (by omega) hturns)
  intro f _
  apply Tracks.ite
  · intro _
    exact Tracks.pure trivial
  · intro _
    exact Tracks.pure trivial

theorem not_readsInside_of_turns
    (hturns : ¬ TurnsInside localtime now text (0, Fields.start localtime now)) :
    ¬ ReadsInside localtime now past text := by
  intro hreads
  obtain ⟨q, hq⟩ := @scanIn_overreads localtime now text (text.length + 1) 0 _
    (Nat.zero_le _) (by omega) hturns
  apply hreads q
  rw [parseTimeIn, hq]
  rfl

/-- **Reads of `parse_time`.** Only characters up to the terminating NUL are read if and
only if every turn of the loop, at the position it begins at, looks ahead inside. -/
theorem readsInside_iff (localtime : Int → Tm) (now : Int) (past : Bool) (text : List Char) :
    ReadsInside localtime now past text ↔
      TurnsInside localtime now text (0, Fields.start localtime now) := by
  constructor
  · intro hreads
    by_contra hturns
    exact not_readsInside_of_turns hturns hreads
  · intro hturns pos hpos
    have htracks := @parseTimeIn_tracks localtime now past text hturns
    rw [hpos] at htracks
    cases hplain : parseTime localtime now past (memOf text) (text.length + 1) with
    | ok a =>
      rw [hplain] at htracks
      cases htracks.1
    | error e =>
      rw [hplain] at htracks
      cases htracks.1

end Result

/-- Of the text `1` the turn at the `1` reads the character behind the NUL. -/
theorem not_readsInside_digit :
    ¬ ReadsInside (fun _ => ⟨116, 5, 30, 12, 0, 0, 0⟩) 1467288000 false ['1'] := by
  intro h
  exact h 2 rfl

end Slurm.ParseTime
