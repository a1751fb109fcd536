import SlurmLite.ParseTime

/-!
# Numbers with a unit

`convert_num_unit` of `slurm_protocol_api.c`, on the whole numbers `sacct`
gives it. The `float` is kept as a whole number over a power of 1024, which is
exact: a conversion from `int` rounds to 24 bits, and a division by 1024 only
changes the exponent.

* `convertNumUnit_chars`: the text has no other characters than digits, signs,
  points and unit letters.
-/

namespace Slurm.Print

open Base.Text Base.CLib Slurm.ParseTime

/-- `"%d"`. -/
def intText (n : Int) : List Char :=
  if n < 0 then '-' :: decimal n.natAbs else decimal n.natAbs

/-- `(float)n`: the nearest number of 24 bits, the even one of two. -/
def toFloat (n : Int) : Int :=
  let ulp := 2 ^ (n.natAbs.log2 - 23)
  let q := n.natAbs / ulp
  let r := n.natAbs % ulp
  let up := 2 * r > ulp ∨ (2 * r = ulp ∧ q % 2 = 1)
  n.sign * ((if up then q + 1 else q) * ulp : Nat)

/-- `UNIT_NONE`. -/
abbrev unitNone : Nat := 0

/-- `UNIT_KILO`. -/
abbrev unitKilo : Nat := 1

/-- The letter of `"\0KMGP?"` after a number; the NUL ends the text. -/
def unitText (unit : Nat) : List Char :=
  ([[], ['K'], ['M'], ['G'], ['P']] : List (List Char)).getD unit ['?']

/-- `while(num>1024)`: how often the number is divided. No `int` is divided
more than three times. -/
def divisions (num : Int) : Nat → Nat → Nat
  | 0, k => k
  | fuel + 1, k => if num > 1024 ^ (k + 1) then divisions num fuel (k + 1) else k

/-- `"%.2f"` of `num / 1024 ^ k`, for a number that is not negative. -/
def hundredths (num k : Nat) : List Char :=
  let q := 100 * num / 1024 ^ k
  let r := 100 * num % 1024 ^ k
  let h := if 2 * r > 1024 ^ k ∨ (2 * r = 1024 ^ k ∧ q % 2 = 1) then q + 1 else q
  decimal (h / 100) ++ '.' :: padded 2 (h % 100)

/-- `convert_num_unit`: the text it leaves in a buffer of `bufSize` bytes. -/
def convertNumUnit (n : Int) (bufSize origType : Nat) : List Char :=
  let num := toFloat n
  let i := (int32 num).tmod 512
  if int32 num = 0 then snprintf bufSize (intText (int32 num))
  else if i > 0 ∧ num < 1024 then snprintf bufSize (intText (int32 num) ++ unitText origType)
  else
    let k := divisions num 4 0
    if num % 1024 ^ k = 0 then
      snprintf bufSize (intText (int32 (num / 1024 ^ k)) ++ unitText (origType + k))
    else snprintf bufSize (hundredths num.toNat k ++ unitText (origType + k))

example : convertNumUnit 1536 34 unitKilo = "1.50M".toList := by decide +kernel

example : convertNumUnit 16777217 34 unitNone = "16M".toList := by decide +kernel

/-- Characters of a number with a unit. -/
def NumChar (c : Char) : Prop := c.isDigit = true ∨ c ∈ "-.KMGP?".toList

theorem numChar_decimal {n : Nat} {c : Char} (h : c ∈ decimal n) : NumChar c :=
  Or.inl (digits_decimal n c h)

theorem numChar_intText {n : Int} {c : Char} (h : c ∈ intText n) : NumChar c := by
  unfold intText at h
  split at h
  · rcases List.mem_cons.mp h with rfl | h
    · exact Or.inr (by decide)
    · exact numChar_decimal h
  · exact numChar_decimal h

theorem numChar_unitText {unit : Nat} {c : Char} (h : c ∈ unitText unit) : NumChar c := by
  refine Or.inr ?_
  rcases unit with _ | _ | _ | _ | _ | unit
  all_goals
    simp only [unitText, List.getD_cons_zero, List.getD_cons_succ, List.getD_nil,
      List.mem_singleton, List.not_mem_nil] at h
  all_goals (subst h; decide)

theorem numChar_hundredths {num k : Nat} {c : Char} (h : c ∈ hundredths num k) : NumChar c := by
  rcases List.mem_append.mp h with h | h
  · exact numChar_decimal h
  · rcases List.mem_cons.mp h with rfl | h
    · exact Or.inr (by decide)
    · exact Or.inl (digits_padded _ _ c h)

theorem convertNumUnit_chars {n : Int} {bufSize origType : Nat} {c : Char}
    (h : c ∈ convertNumUnit n bufSize origType) : NumChar c := by
  have happ : ∀ {text : List Char} {unit : Nat}, (∀ c ∈ text, NumChar c) →
      c ∈ snprintf bufSize (text ++ unitText unit) → NumChar c := by
    intro text unit htext hmem
    rcases List.mem_append.mp (List.mem_of_mem_take hmem) with hc | hc
    · exact htext c hc
    · exact numChar_unitText hc
  unfold convertNumUnit at h
  dsimp only at h
  split at h
  · exact numChar_intText (List.mem_of_mem_take h)
  · split at h
    · exact happ (fun _ => numChar_intText) h
    · split at h
      · exact happ (fun _ => numChar_intText) h
      · exact happ (fun _ => numChar_hundredths) h

end Slurm.Print
