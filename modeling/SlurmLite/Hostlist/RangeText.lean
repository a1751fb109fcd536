import SlurmLite.Hostlist.Build

/-!
# The texts the range-list parser accepts

What a comma-separated item between brackets denotes: a number, two numbers
joined by a dash (`Denotes`), or a box of digits, whose rows are ranges of the
numbers its corners spell (`ItemRanges`). `parseRangeList_iff` says that the
parser accepts a list of such items and nothing else.

The parser lets some malformed items through: `strtoul` takes white space and a
sign, saturates at the largest `unsigned long`, and leaves an end pointer that
the second number overwrites; a dash may end the item; a row of a box that does
not parse ends the box as if it were complete. `ClearItem` says that an item is
none of these. A row that finds the array full ends the box too, which is then cut
where the array ends (`Collected`).
-/

namespace Slurm.Hosts

open Base.Text Base.CLib

/-! ## What an item denotes -/

/-- A decimal number. -/
def Number (t : List Char) : Prop := t ≠ [] ∧ Digits t

/-- A number, or two numbers joined by a dash: the bounds, and the digits of the
first number. -/
inductive Denotes : List Char → SuffixRange → Prop
  | number {t : List Char} : Number t →
      Denotes t { lo := value t, hi := value t, width := t.length }
  | pair {s p : List Char} : Number s → Number p → value s ≤ value p →
      value p - value s + 1 ≤ maxRange →
      Denotes (s ++ '-' :: p) { lo := value s, hi := value p, width := s.length }

/-- The coordinate a digit spells. -/
def coord (c : Char) : Nat := c.toNat - 48

/-- The ranges of a box: for each `x` and `y` between its corners, the numbers
`xyz` with `z` between the last coordinates. -/
def boxRanges (c0 c1 c2 d0 d1 d2 : Char) : List SuffixRange :=
  (List.range' (coord c0) (coord d0 + 1 - coord c0)).flatMap fun x =>
    (List.range' (coord c1) (coord d1 + 1 - coord c1)).map fun y =>
      { lo := 100 * x + 10 * y + coord c2, hi := 100 * x + 10 * y + coord d2, width := 3 }

/-- The ranges an item stands for. -/
inductive ItemRanges : List Char → List SuffixRange → Prop
  | single {t : List Char} {r : SuffixRange} : Denotes t r → ItemRanges t [r]
  | box {c0 c1 c2 d0 d1 d2 : Char} : Digits [c0, c1, c2, d0, d1, d2] →
      coord c0 ≤ coord d0 → coord c1 ≤ coord d1 → coord c2 ≤ coord d2 →
      ItemRanges [c0, c1, c2, 'x', d0, d1, d2] (boxRanges c0 c1 c2 d0 d1 d2)

/-! ## Items the parser reads as they are written -/

/-- A number part that `strtoul` reads as it is written: it starts with no white
space and no plus sign, and as a number it fits an `unsigned long`. -/
structure ClearPart (t : List Char) : Prop where
  start : ∀ c ∈ t.head?, isspace c = false ∧ c ≠ '+'
  fits : Digits t → value t ≤ ulongMax

/-- An item without the parser's slips. -/
structure ClearItem (item : List Char) : Prop where
  alone : '-' ∉ item → ClearPart item
  joined : ∀ s p, item = s ++ '-' :: p → '-' ∉ s →
    ClearPart s ∧ ClearPart p ∧ p ≠ [] ∧ ((∃ c ∈ s.head?, c.isDigit = true) → Digits s) ∧
      ¬ (Digits s ∧ Digits p ∧ value s = 0 ∧ value p = ulongMax)
  box : ∀ c0 c1 c2 d0 d1 d2, item = [c0, c1, c2, 'x', d0, d1, d2] →
    (∀ c ∈ [c0, c1, c2, d0, d1, d2], (boxDigit c).isSome = true) →
      Digits [c0, c1, c2, d0, d1, d2] ∧ coord c0 ≤ coord d0 ∧ coord c1 ≤ coord d1 ∧
        coord c2 ≤ coord d2

/-! ## `strtoul` on a number part -/

/-- A text that starts with no white space and no sign is read from its first
character on. -/
theorem strtoul_plain {t : List Char}
    (h : ∀ c ∈ t.head?, isspace c = false ∧ c ≠ '+' ∧ c ≠ '-') :
    strtoul t =
      if t.takeWhile Char.isDigit = [] then none
      else some (min (value (t.takeWhile Char.isDigit)) ulongMax, t.dropWhile Char.isDigit) := by
  have hsign : optSign (t.dropWhile isspace) = (false, t) := by
    cases t with
    | nil => rfl
    | cons c t =>
      obtain ⟨hs, hp, hm⟩ := h c rfl
      rw [List.dropWhile_cons_of_neg (by simp [hs]), optSign, if_neg hm, if_neg hp]
  unfold strtoul
  simp only [hsign, Bool.false_eq_true, if_false]
  split
  · rfl
  · congr 2
    split <;> omega

/-- `strtoul` reads a text to its end only when it is a number. -/
theorem number_of_strtoul {t : List Char} {n : Nat}
    (h : ∀ c ∈ t.head?, isspace c = false ∧ c ≠ '+' ∧ c ≠ '-')
    (hread : strtoul t = some (n, [])) : Number t := by
  rw [strtoul_plain h] at hread
  split at hread
  · cases hread
  next hne =>
    have hrest : t.dropWhile Char.isDigit = [] :=
      (Prod.mk.inj (Option.some.inj hread)).2
    have hd : Digits t := List.dropWhile_eq_nil_iff.mp hrest
    refine ⟨?_, hd⟩
    rintro rfl
    exact hne rfl

/-- Without a digit at its start the text is not read at all. -/
theorem strtoul_eq_none {t : List Char}
    (h : ∀ c ∈ t.head?, isspace c = false ∧ c ≠ '+' ∧ c ≠ '-')
    (hd : ¬ ∃ c ∈ t.head?, c.isDigit = true) : strtoul t = none := by
  rw [strtoul_plain h, if_pos]
  cases t with
  | nil => rfl
  | cons c t =>
    apply List.takeWhile_cons_of_neg
    intro hc
    exact hd ⟨c, rfl, hc⟩

theorem Number.strtoul {t : List Char} (h : Number t) (hv : value t ≤ ulongMax) :
    strtoul t = some (value t, []) := by
  rw [strtoul_digits h.1 h.2, Nat.min_eq_left hv]

theorem Number.notMem {t : List Char} (h : Number t) {c : Char} (hc : c.isDigit = false) :
    c ∉ t := by
  intro hm
  exact absurd ((h.2 c hm).symm.trans hc) (by simp)

theorem Number.clearPart {t : List Char} (h : Number t) (hv : value t ≤ ulongMax) :
    ClearPart t := by
  refine ⟨fun c hc => ?_, fun _ => hv⟩
  have hd : c.isDigit = true := h.2 c (List.mem_of_mem_head? hc)
  refine ⟨isspace_of_isDigit hd, ?_⟩
  rintro rfl
  exact absurd hd (by decide)

theorem ClearPart.start' {t : List Char} (h : ClearPart t) (hm : t.head? ≠ some '-') :
    ∀ c ∈ t.head?, isspace c = false ∧ c ≠ '+' ∧ c ≠ '-' := by
  intro c hc
  refine ⟨(h.start c hc).1, (h.start c hc).2, ?_⟩
  rintro rfl
  exact hm hc

/-! ## One number or two -/

theorem Denotes.notMem {item : List Char} {r : SuffixRange} (h : Denotes item r) :
    'x' ∉ item := by
  cases h with
  | number ht => exact ht.notMem (by decide)
  | pair hs hp =>
    intro hm
    rcases List.mem_append.mp hm with hm | hm
    · exact hs.notMem (by decide) hm
    · rcases List.mem_cons.mp hm with hm | hm
      · exact absurd hm (by decide)
      · exact hp.notMem (by decide) hm

theorem denotes_alone {item : List Char} {r : SuffixRange} (hno : '-' ∉ item) :
    Denotes item r ↔
      Number item ∧ r = { lo := value item, hi := value item, width := item.length } := by
  constructor
  · intro h
    cases h with
    | number ht => exact ⟨ht, rfl⟩
    | pair => exact absurd (by simp) hno
  · rintro ⟨h, rfl⟩
    exact .number h

theorem denotes_joined {s p : List Char} {r : SuffixRange} (hs : '-' ∉ s) :
    Denotes (s ++ '-' :: p) r ↔
      Number s ∧ Number p ∧ value s ≤ value p ∧ value p - value s + 1 ≤ maxRange ∧
        r = { lo := value s, hi := value p, width := s.length } := by
  constructor
  · intro h
    generalize hitem : s ++ '-' :: p = item at h
    cases h with
    | number ht =>
      have hm : '-' ∈ s ++ '-' :: p := by simp
      exact absurd (hitem ▸ hm) (ht.notMem (by decide))
    | @pair s' p' hs' hp' hle hsize =>
      -- both texts are cut at their first dash
      have hcut := strchr_append hs p
      rw [hitem, strchr_append (hs'.notMem (by decide)) p'] at hcut
      cases hcut
      exact ⟨hs', hp', hle, hsize, rfl⟩
  · rintro ⟨h1, h2, h3, h4, rfl⟩
    exact .pair h1 h2 h3 h4

theorem parseSingleRange_alone {item : List Char} {r : SuffixRange} (hno : '-' ∉ item)
    (hc : ClearPart item) : parseSingleRange item = some r ↔ Denotes item r := by
  rw [denotes_alone hno]
  have hstart := hc.start' (fun h => hno (List.mem_of_mem_head? h))
  unfold parseSingleRange
  simp only [strchr_eq_none hno, Option.map_none, Option.getD_none, List.head?_nil]
  by_cases hn : Number item
  · have hone : ¬ ulong ((value item : Int) - value item + 1) > maxRange := by
      rw [Int.sub_self]
      decide
    rw [if_neg (hn.notMem (by decide)), if_neg (by simp), hn.strtoul (hc.fits hn.2)]
    simp only [if_true]
    rw [if_neg (by omega), if_neg hone, Option.some.injEq]
    exact ⟨fun h => ⟨hn, h.symm⟩, fun h => h.2.symm⟩
  · constructor
    · intro h
      split at h
      · cases h
      rw [if_neg (by simp)] at h
      cases hread : strtoul item with
      | none => simp [hread] at h
      | some lq =>
        obtain ⟨lo, q⟩ := lq
        cases q with
        | nil => exact absurd (number_of_strtoul hstart hread) hn
        | cons c q => simp [hread] at h
    · intro h
      exact absurd h.1 hn

theorem parseSingleRange_joined {s p : List Char} {r : SuffixRange} (hs : '-' ∉ s)
    (hc : ClearItem (s ++ '-' :: p)) :
    parseSingleRange (s ++ '-' :: p) = some r ↔ Denotes (s ++ '-' :: p) r := by
  rw [denotes_joined hs]
  obtain ⟨hcs, hcp, hpne, hdig, hwrap⟩ := hc.joined s p rfl hs
  have hstart := hcs.start' (fun h => hs (List.mem_of_mem_head? h))
  unfold parseSingleRange
  simp only [strchr_append hs, Option.map_some, Option.getD_some, if_neg hpne]
  by_cases hn : Number s ∧ Number p
  · obtain ⟨hns, hnp⟩ := hn
    have hx : 'x' ∉ s ++ '-' :: p := by
      simp [hns.notMem (show Char.isDigit 'x' = false by decide),
        hnp.notMem (show Char.isDigit 'x' = false by decide)]
    have hdash : p.head? ≠ some '-' := fun h =>
      hnp.notMem (show Char.isDigit '-' = false by decide) (List.mem_of_mem_head? h)
    have hv := hcs.fits hns.2
    have hw := hcp.fits hnp.2
    rw [if_neg hx, if_neg hdash, hns.strtoul hv, hnp.strtoul hw]
    simp only
    by_cases hle : value s ≤ value p
    · -- the size is computed without a wrap
      have hsize : ulong ((value p : Int) - value s + 1) = value p - value s + 1 := by
        have hne : ¬ (value s = 0 ∧ value p = ulongMax) := fun h =>
          hwrap ⟨hns.2, hnp.2, h.1, h.2⟩
        have hmax : ulongMax = 18446744073709551615 := rfl
        unfold ulong
        omega
      rw [if_neg (by omega), hsize]
      by_cases hbig : value p - value s + 1 ≤ maxRange
      · rw [if_neg (by omega), Option.some.injEq]
        exact ⟨fun h => ⟨hns, hnp, hle, hbig, h.symm⟩, fun h => h.2.2.2.2.symm⟩
      · rw [if_pos (by omega)]
        exact ⟨fun h => absurd h (by simp), fun h => absurd h.2.2.2.1 hbig⟩
    · rw [if_pos (by omega)]
      exact ⟨fun h => absurd h (by simp), fun h => absurd h.2.2.1 hle⟩
  · constructor
    · intro h
      split at h
      · cases h
      split at h
      · cases h
      next hdash =>
        cases hlo : strtoul s with
        | none => simp [hlo] at h
        | some lq =>
          -- a first part that is read starts with a digit, so it is a number
          have hns : Number s := by
            have hfirst : ∃ c ∈ s.head?, c.isDigit = true := by
              by_contra hd
              rw [strtoul_eq_none hstart hd] at hlo
              cases hlo
            refine ⟨?_, hdig hfirst⟩
            rintro rfl
            obtain ⟨c, hc, -⟩ := hfirst
            cases hc
          cases hhi : strtoul p with
          | none => simp [hlo, hhi] at h
          | some hq =>
            obtain ⟨hi, q⟩ := hq
            cases q with
            | nil => exact absurd ⟨hns, number_of_strtoul (hcp.start' hdash) hhi⟩ hn
            | cons c q => simp [hlo, hhi] at h
    · intro h
      exact absurd ⟨h.1, h.2.1⟩ hn

/-- A number is a clear item. -/
theorem clearItem_number {t : List Char} (h : Number t) (hv : value t ≤ ulongMax) :
    ClearItem t := by
  refine ⟨fun _ => h.clearPart hv, ?_, ?_⟩
  · rintro s p rfl -
    exact absurd (by simp) (h.notMem (show Char.isDigit '-' = false by decide))
  · rintro c0 c1 c2 d0 d1 d2 rfl
    exact absurd (by simp) (h.notMem (show Char.isDigit 'x' = false by decide))

/-- Two numbers joined by a dash are a clear item. -/
theorem clearItem_pair {s p : List Char} (hs : Number s) (hp : Number p)
    (hvs : value s ≤ ulongMax) (hvp : value p ≤ ulongMax)
    (hwrap : ¬ (value s = 0 ∧ value p = ulongMax)) : ClearItem (s ++ '-' :: p) := by
  have hcut : '-' ∉ s := hs.notMem (by decide)
  refine ⟨fun h => absurd (by simp) h, ?_, ?_⟩
  · intro s' p' hitem hs'
    have hsame := strchr_append hs' p'
    rw [← hitem, strchr_append hcut] at hsame
    cases hsame
    exact ⟨hs.clearPart hvs, hp.clearPart hvp, hp.1, fun _ => hs.2,
      fun h => hwrap ⟨h.2.2.1, h.2.2.2⟩⟩
  · intro c0 c1 c2 d0 d1 d2 hitem
    have hx : 'x' ∈ s ++ '-' :: p := by simp [hitem]
    rcases List.mem_append.mp hx with hx | hx
    · exact absurd hx (hs.notMem (by decide))
    · rcases List.mem_cons.mp hx with hx | hx
      · exact absurd hx (by decide)
      · exact absurd hx (hp.notMem (by decide))

/-- `_parse_single_range` accepts what denotes a range. -/
theorem parseSingleRange_iff {item : List Char} {r : SuffixRange} (hc : ClearItem item) :
    parseSingleRange item = some r ↔ Denotes item r := by
  cases hcut : strchr '-' item with
  | none =>
    have hno := not_mem_of_strchr_none hcut
    exact parseSingleRange_alone hno (hc.alone hno)
  | some sp =>
    obtain ⟨s, p⟩ := sp
    obtain rfl := eq_of_strchr hcut
    exact parseSingleRange_joined (not_mem_of_strchr hcut) hc

/-! ## Boxes -/

theorem coord_le {c : Char} (h : c.isDigit = true) : coord c ≤ 9 := by
  simp only [Char.isDigit, Bool.and_eq_true, decide_eq_true_eq] at h
  have hle : c.toNat ≤ 57 := UInt32.le_iff_toNat_le.mp h.2
  unfold coord
  omega

theorem boxDigit_of_isDigit {c : Char} (h : c.isDigit = true) : boxDigit c = some (coord c) := by
  simp only [Char.isDigit, Bool.and_eq_true, decide_eq_true_eq] at h
  exact if_pos h

theorem isDigit_alphaNum {i : Nat} (h : i ≤ 9) : (alphaNum i).isDigit = true := by
  interval_cases i <;> rfl

theorem coord_alphaNum {i : Nat} (h : i ≤ 9) : coord (alphaNum i) = i := by
  interval_cases i <;> rfl

/-- The number three digits spell. -/
theorem value_three {x y z : Nat} (hx : x ≤ 9) (hy : y ≤ 9) (hz : z ≤ 9) :
    Number [alphaNum x, alphaNum y, alphaNum z] ∧
      value [alphaNum x, alphaNum y, alphaNum z] = 100 * x + 10 * y + z := by
  have h1 := coord_alphaNum hx
  have h2 := coord_alphaNum hy
  have h3 := coord_alphaNum hz
  unfold coord at h1 h2 h3
  refine ⟨⟨by simp, ?_⟩, ?_⟩
  · intro c hc
    simp only [List.mem_cons, List.not_mem_nil, or_false] at hc
    rcases hc with rfl | rfl | rfl
    · exact isDigit_alphaNum hx
    · exact isDigit_alphaNum hy
    · exact isDigit_alphaNum hz
  · simp only [value, Nat.ofDigitChars, List.foldl_cons, List.foldl_nil]
    rw [show ('0' : Char).toNat = 48 from rfl, h1, h2, h3]
    omega

/-- A row of a box is the range its two numbers denote. -/
theorem parseSingleRange_row {x y z0 z1 : Nat} (hx : x ≤ 9) (hy : y ≤ 9) (h0 : z0 ≤ 9)
    (h1 : z1 ≤ 9) (hle : z0 ≤ z1) :
    parseSingleRange [alphaNum x, alphaNum y, alphaNum z0, '-',
        alphaNum x, alphaNum y, alphaNum z1] =
      some { lo := 100 * x + 10 * y + z0, hi := 100 * x + 10 * y + z1, width := 3 } := by
  obtain ⟨hn0, hv0⟩ := value_three hx hy h0
  obtain ⟨hn1, hv1⟩ := value_three hx hy h1
  have hcut : '-' ∉ [alphaNum x, alphaNum y, alphaNum z0] := hn0.notMem (by decide)
  have hmax : ulongMax = 18446744073709551615 := rfl
  have hrange : maxRange = 16384 := rfl
  have hdenotes := Denotes.pair hn0 hn1 (by omega) (by omega)
  rw [hv0, hv1] at hdenotes
  exact (parseSingleRange_joined hcut
    (clearItem_pair hn0 hn1 (by omega) (by omega) (by omega))).mpr hdenotes

/-- The rows of a box of digits, as far as the array has room. -/
theorem boxRows_eq {len z0 z1 : Nat} (h0 : z0 ≤ 9) (h1 : z1 ≤ 9) (hle : z0 ≤ z1) :
    ∀ (rows : List (Nat × Nat)) (acc : List SuffixRange),
    (∀ q ∈ rows, q.1 ≤ 9 ∧ q.2 ≤ 9) → acc.length ≤ len →
    boxRows len z0 z1 rows acc = acc ++ (rows.map fun q : Nat × Nat =>
      ({ lo := 100 * q.1 + 10 * q.2 + z0, hi := 100 * q.1 + 10 * q.2 + z1,
         width := 3 } : SuffixRange)).take (len - acc.length) := by
  intro rows
  induction rows with
  | nil => intro acc _ _; simp [boxRows]
  | cons q rows ih =>
    intro acc hq hlen
    obtain ⟨x, y⟩ := q
    obtain ⟨hx, hy⟩ := hq (x, y) (by simp)
    rw [boxRows]
    by_cases hfull : acc.length = len
    · rw [if_pos hfull, hfull]
      simp
    · rw [if_neg hfull, parseSingleRange_row hx hy h0 h1 hle]
      simp only
      rw [ih _ (fun q hq' => hq q (List.mem_cons_of_mem _ hq'))
        (by simp only [List.length_append, List.length_singleton]; omega)]
      have hroom : len - acc.length = (len - (acc.length + 1)) + 1 := by omega
      simp only [List.length_append, List.length_singleton, List.map_cons]
      rw [hroom, List.take_succ_cons, List.append_assoc, List.singleton_append]

/-- The form of a box. -/
theorem eq_of_boxForm {item : List Char} (hx : item[3]? = some 'x') (hlen : item.length = 7) :
    ∃ c0 c1 c2 d0 d1 d2, item = [c0, c1, c2, 'x', d0, d1, d2] := by
  match item, hlen with
  | [c0, c1, c2, c3, d0, d1, d2], _ =>
    simp only [List.getElem?_cons_succ, List.getElem?_cons_zero, Option.some.injEq] at hx
    exact ⟨c0, c1, c2, d0, d1, d2, by rw [hx]⟩

/-- An item of the form of a box denotes nothing else. -/
theorem itemRanges_box {c0 c1 c2 d0 d1 d2 : Char} {rs : List SuffixRange} :
    ItemRanges [c0, c1, c2, 'x', d0, d1, d2] rs ↔
      (Digits [c0, c1, c2, d0, d1, d2] ∧ coord c0 ≤ coord d0 ∧ coord c1 ≤ coord d1 ∧
        coord c2 ≤ coord d2) ∧ rs = boxRanges c0 c1 c2 d0 d1 d2 := by
  constructor
  · intro h
    cases h with
    | single h => exact absurd (by simp) h.notMem
    | box hd h0 h1 h2 => exact ⟨⟨hd, h0, h1, h2⟩, rfl⟩
  · rintro ⟨⟨hd, h0, h1, h2⟩, rfl⟩
    exact .box hd h0 h1 h2

/-- `_parse_box_range` on a box of digits. -/
theorem parseBoxRange_digits {c0 c1 c2 d0 d1 d2 : Char} {len : Nat} {acc : List SuffixRange}
    (hd : Digits [c0, c1, c2, d0, d1, d2]) (h2 : coord c2 ≤ coord d2) (hlen : acc.length ≤ len) :
    parseBoxRange [c0, c1, c2, 'x', d0, d1, d2] len acc =
      some (acc ++ (boxRanges c0 c1 c2 d0 d1 d2).take (len - acc.length)) := by
  have hdigit : ∀ c ∈ [c0, c1, c2, d0, d1, d2], boxDigit c = some (coord c) ∧ coord c ≤ 9 :=
    fun c hc => ⟨boxDigit_of_isDigit (hd c hc), coord_le (hd c hc)⟩
  simp only [List.forall_mem_cons] at hdigit
  obtain ⟨⟨e0, -⟩, ⟨e1, -⟩, ⟨e2, l2⟩, ⟨f0, k0⟩, ⟨f1, k1⟩, ⟨f2, k2⟩, -⟩ := hdigit
  simp only [parseBoxRange, e0, e1, e2, f0, f1, f2, Option.bind_eq_bind, Option.bind_some]
  rw [boxRows_eq l2 k2 h2 _ _ ?_ hlen]
  · congr 3
    rw [boxRanges, List.map_flatMap]
    simp only [List.map_map]
    rfl
  · intro q hq
    obtain ⟨x, hx, hq⟩ := List.mem_flatMap.mp hq
    obtain ⟨y, hy, rfl⟩ := List.mem_map.mp hq
    rw [List.mem_range'_1] at hx hy
    exact ⟨by omega, by omega⟩

/-- `_parse_box_range` rejects a box with a character that is no coordinate. -/
theorem parseBoxRange_none {c0 c1 c2 d0 d1 d2 : Char} {len : Nat} {acc : List SuffixRange}
    (h : ¬ ∀ c ∈ [c0, c1, c2, d0, d1, d2], (boxDigit c).isSome = true) :
    parseBoxRange [c0, c1, c2, 'x', d0, d1, d2] len acc = none := by
  by_contra hne
  apply h
  obtain ⟨rs, hrs⟩ := Option.ne_none_iff_exists'.mp hne
  simp only [parseBoxRange, Option.bind_eq_bind, Option.bind_eq_some_iff] at hrs
  obtain ⟨a0, e0, b0, f0, a1, e1, b1, f1, a2, e2, b2, f2, -⟩ := hrs
  simp [e0, e1, e2, f0, f1, f2]

/-! ## The list of items -/

/-- What the loop of `_parse_range_list` ends with behind `acc`, in an array of `len` ranges: what
the items stand for, of which the last may be a box that is cut where the array ends, and the
array is not full before any item. -/
def Collected (len : Nat) (items : List (List Char)) (acc rs : List SuffixRange) : Prop :=
  ∃ rss, List.Forall₂ ItemRanges items rss ∧
    (rss ≠ [] → acc.length + rss.dropLast.flatten.length < len) ∧
    rs = acc ++ rss.flatten.take (len - acc.length)

section

variable {len : Nat} {item : List Char} {items : List (List Char)} {acc rs : List SuffixRange}

theorem collected_nil : Collected len [] acc rs ↔ rs = acc := by
  constructor
  · rintro ⟨rss, hrss, -, hrs⟩
    cases hrss
    simpa using hrs
  · rintro rfl
    exact ⟨[], .nil, fun h => absurd rfl h, by simp⟩

theorem not_collected_full (hfull : acc.length = len) :
    ¬ Collected len (item :: items) acc rs := by
  rintro ⟨rss, hrss, hroom, -⟩
  cases hrss with
  | cons =>
    have := hroom (List.cons_ne_nil _ _)
    omega

theorem not_collected_reject (hno : ∀ r, ¬ ItemRanges item r) :
    ¬ Collected len (item :: items) acc rs := by
  rintro ⟨rss, hrss, -⟩
  cases hrss with
  | cons h => exact hno _ h

/-- The ranges of one item are stored as far as there is room, and the rest go on behind them. -/
theorem collected_cons {r0 : List SuffixRange} (h0 : ItemRanges item r0)
    (huniq : ∀ r, ItemRanges item r → r = r0) (hroom : acc.length < len) :
    Collected len (item :: items) acc rs ↔
      Collected len items (acc ++ r0.take (len - acc.length)) rs := by
  have hlen : (acc ++ r0.take (len - acc.length)).length = min len (acc.length + r0.length) := by
    rw [List.length_append, List.length_take]
    omega
  -- behind the first item's ranges there is room for what there was room for from the start
  have hrest : ∀ rss : List (List SuffixRange),
      (rss ≠ [] → (acc ++ r0.take (len - acc.length)).length + rss.dropLast.flatten.length < len) ↔
        acc.length + (r0 :: rss).dropLast.flatten.length < len := by
    intro rss
    cases rss with
    | nil => simpa using hroom
    | cons r rss =>
      rw [hlen, List.dropLast_cons_of_ne_nil (List.cons_ne_nil _ _), List.flatten_cons,
        List.length_append]
      simp only [ne_eq, reduceCtorEq, not_false_eq_true, forall_const]
      omega
  have htake : ∀ rss : List (List SuffixRange),
      acc ++ (r0 :: rss).flatten.take (len - acc.length) =
        acc ++ r0.take (len - acc.length) ++
          rss.flatten.take (len - (acc ++ r0.take (len - acc.length)).length) := by
    intro rss
    rw [hlen, List.flatten_cons, List.take_append, List.append_assoc]
    congr 3
    omega
  constructor
  · rintro ⟨rss, hrss, hfits, hrs⟩
    cases hrss with
    | @cons _ r _ rss h hs =>
      obtain rfl := huniq _ h
      exact ⟨rss, hs, (hrest rss).mpr (hfits (List.cons_ne_nil _ _)), hrs.trans (htake rss)⟩
  · rintro ⟨rss, hs, hfits, hrs⟩
    exact ⟨r0 :: rss, .cons h0 hs, fun _ => (hrest rss).mp hfits, hrs.trans (htake rss).symm⟩

/-- An item of the form of a box is stored as far as there is room, or rejected. -/
theorem parseItems_box {c0 c1 c2 d0 d1 d2 : Char} (hc : ClearItem [c0, c1, c2, 'x', d0, d1, d2])
    (hroom : acc.length < len) :
    (∃ r0, ItemRanges [c0, c1, c2, 'x', d0, d1, d2] r0 ∧
        parseItems len ([c0, c1, c2, 'x', d0, d1, d2] :: items) acc =
          parseItems len items (acc ++ r0.take (len - acc.length))) ∨
      (∀ r, ¬ ItemRanges [c0, c1, c2, 'x', d0, d1, d2] r) ∧
        parseItems len ([c0, c1, c2, 'x', d0, d1, d2] :: items) acc = none := by
  rw [parseItems, if_neg (Nat.ne_of_lt hroom), if_pos ⟨rfl, rfl⟩]
  by_cases hcoord : ∀ c ∈ [c0, c1, c2, d0, d1, d2], (boxDigit c).isSome = true
  · obtain ⟨hd, h0, h1, h2⟩ := hc.box c0 c1 c2 d0 d1 d2 rfl hcoord
    rw [parseBoxRange_digits hd h2 hroom.le]
    exact .inl ⟨_, .box hd h0 h1 h2, rfl⟩
  · rw [parseBoxRange_none hcoord]
    refine .inr ⟨fun r h => hcoord fun c hcm => ?_, rfl⟩
    rw [boxDigit_of_isDigit ((itemRanges_box.mp h).1.1 c hcm)]
    rfl

/-- Any other item is one range, or rejected. -/
theorem parseItems_single (hc : ClearItem item) (hform : ¬(item[3]? = some 'x' ∧ item.length = 7))
    (hroom : acc.length < len) :
    (∃ r0, ItemRanges item r0 ∧
        parseItems len (item :: items) acc =
          parseItems len items (acc ++ r0.take (len - acc.length))) ∨
      (∀ r, ¬ ItemRanges item r) ∧ parseItems len (item :: items) acc = none := by
  rw [parseItems, if_neg (Nat.ne_of_lt hroom), if_neg hform]
  cases hparse : parseSingleRange item with
  | none =>
    refine .inr ⟨fun r h => ?_, rfl⟩
    cases h with
    | single h => exact absurd (hparse.symm.trans ((parseSingleRange_iff hc).mpr h)) (by simp)
    | box => exact hform ⟨rfl, rfl⟩
  | some r0 =>
    refine .inl ⟨[r0], .single ((parseSingleRange_iff hc).mp hparse), ?_⟩
    rw [List.take_of_length_le (by rw [List.length_singleton]; omega)]

/-- What a clear item stands for is one thing only. -/
theorem ItemRanges.unique (hc : ClearItem item) {r r0 : List SuffixRange} (h : ItemRanges item r)
    (h0 : ItemRanges item r0) : r = r0 := by
  cases h0 with
  | box hd h1 h2 h3 => exact (itemRanges_box.mp h).2
  | single h0 =>
    cases h with
    | box => exact absurd (by simp) h0.notMem
    | single h =>
      have heq := ((parseSingleRange_iff hc).mpr h).symm.trans ((parseSingleRange_iff hc).mpr h0)
      rw [Option.some.inj heq]

end

/-- The loop of `_parse_range_list` collects what the items stand for. -/
theorem parseItems_iff {len : Nat} {rs : List SuffixRange} :
    ∀ (items : List (List Char)) (acc : List SuffixRange),
    (∀ item ∈ items, ClearItem item) → acc.length ≤ len →
    (parseItems len items acc = some rs ↔ Collected len items acc rs) := by
  intro items
  induction items with
  | nil =>
    intro acc _ _
    rw [parseItems, Option.some.injEq, collected_nil]
    exact eq_comm
  | cons item items ih =>
    intro acc hc hlen
    have hitem := hc item List.mem_cons_self
    have hnone : ¬ (none : Option (List SuffixRange)) = some rs := by simp
    by_cases hfull : acc.length = len
    · rw [parseItems, if_pos hfull]
      exact iff_of_false hnone (not_collected_full hfull)
    have hroom : acc.length < len := Nat.lt_of_le_of_ne hlen hfull
    have hcases : (∃ r0, ItemRanges item r0 ∧ parseItems len (item :: items) acc =
          parseItems len items (acc ++ r0.take (len - acc.length))) ∨
        (∀ r, ¬ ItemRanges item r) ∧ parseItems len (item :: items) acc = none := by
      by_cases hform : item[3]? = some 'x' ∧ item.length = 7
      · obtain ⟨c0, c1, c2, d0, d1, d2, rfl⟩ := eq_of_boxForm hform.1 hform.2
        exact parseItems_box hitem hroom
      · exact parseItems_single hitem hform hroom
    rcases hcases with ⟨r0, h0, hparse⟩ | ⟨hno, hparse⟩
    · rw [hparse, collected_cons h0 (fun r h => h.unique hitem h0) hroom]
      refine ih _ (fun i hi => hc i (List.mem_cons_of_mem _ hi)) ?_
      rw [List.length_append, List.length_take]
      omega
    · rw [hparse]
      exact iff_of_false hnone (not_collected_reject hno)

/-- A text between brackets whose items are clear is accepted exactly when every item is a number,
two numbers joined by a dash, or a box of digits, and the array is not full before any of them;
it holds what they stand for then, up to its end. -/
theorem parseRangeList_iff {text : List Char} {len : Nat} {rs : List SuffixRange}
    (hclear : ∀ item ∈ text.splitOn ',', ClearItem item) :
    parseRangeList text len = some rs ↔
      ∃ rss, List.Forall₂ ItemRanges (text.splitOn ',') rss ∧
        rss.dropLast.flatten.length < len ∧ rs = rss.flatten.take len := by
  have hne : ∀ rss, List.Forall₂ ItemRanges (text.splitOn ',') rss → rss ≠ [] := by
    rintro rss hrss rfl
    exact List.splitOn_ne_nil _ _ (List.forall₂_nil_right_iff.mp hrss)
  rw [parseRangeList, parseItems_iff _ _ hclear (Nat.zero_le len), Collected]
  refine exists_congr fun rss => and_congr_right fun hrss => ?_
  rw [forall_prop_of_true (hne rss hrss), List.length_nil, Nat.zero_add, Nat.sub_zero,
    List.nil_append]

/-- Two ranges are read as they are written. -/
theorem parseRangeList_numbers :
    parseRangeList "3,07-12".toList maxRanges =
      some [{ lo := 3, hi := 3, width := 1 }, { lo := 7, hi := 12, width := 2 }] := by
  have h3 : Number ['3'] := ⟨by simp, by simp [Digits]⟩
  have h07 : Number ['0', '7'] := ⟨by simp, by simp [Digits]⟩
  have h12 : Number ['1', '2'] := ⟨by simp, by simp [Digits]⟩
  have hitems : "3,07-12".toList.splitOn ',' = [['3'], ['0', '7'] ++ '-' :: ['1', '2']] := by
    decide
  apply (parseRangeList_iff ?_).mpr
  · rw [hitems]
    exact ⟨[[_], [_]], .cons (.single (.number h3)) (.cons
      (.single (.pair h07 h12 (by decide) (by decide))) .nil), by decide, rfl⟩
  · rw [hitems]
    intro item hitem
    simp only [List.mem_cons, List.not_mem_nil, or_false] at hitem
    rcases hitem with rfl | rfl
    · exact clearItem_number h3 (by decide)
    · exact clearItem_pair h07 h12 (by decide) (by decide) (by decide)

/-- A box is accepted, though no item of it is a number or two numbers joined by a
dash. -/
theorem not_parseRangeList_iff :
    ¬ ∀ (text : List Char) (rs : List SuffixRange),
      parseRangeList text maxRanges = some rs ↔
        List.Forall₂ Denotes (text.splitOn ',') rs := by
  intro h
  have hparse : parseRangeList "000x111".toList maxRanges = some
      [{ lo := 0, hi := 1, width := 3 }, { lo := 10, hi := 11, width := 3 },
       { lo := 100, hi := 101, width := 3 }, { lo := 110, hi := 111, width := 3 }] := by
    decide
  have hden := (h _ _).mp hparse
  rw [List.splitOn_eq_singleton (by decide)] at hden
  cases hden with
  | cons hitem hs =>
    cases hs

end Slurm.Hosts
