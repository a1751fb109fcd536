import SlurmLite.Hostlist.Ops

/-!
# Finding a host

`hostlist_find` splits the name into a stem and its trailing digits and asks
each range in turn whether it covers the number at a fitting width, while the
expansion prints a prefix and a padded number. The two views differ in two ways:

* a range whose prefix ends in a digit is never found (`HostRange.Misses`);
* the number passes through an `int` before the widths are compared, so from
  2^31 on names are missed (`Misses`) or taken for others (`Mistakes`).

`FindOk` says that the first range concerned is of neither kind, and
`hostlistFind_spec` that the index returned is then the first one.
-/

namespace Slurm.Hosts

open Base.Text Base.CLib

/-- `hostrange_hn_within`: the result and the range, whose width it may change.
The host's number is compared through an `int`. -/
def hostrangeHnWithin (hr : HostRange) (hn : Hostname) : Bool × HostRange :=
  if hr.singlehost then (strcmp hn.hostname hr.pfx = 0, hr)
  else
    match hn.suffix with
    | none => (false, hr)
    | some suffix =>
      if strcmp hr.pfx hn.pfx ≠ 0 then (false, hr)
      else if hn.num ≤ hr.hi ∧ hn.num ≥ hr.lo then
        let width := suffix.length
        let num := int32 hn.num
        let r := widthEquiv hr.lo hr.width (ulong num) width
        (r.1, { hr with width := r.2.1 })
      else (false, hr)

/-- The loop of `hostlist_find`. -/
def findLoop (hn : Hostname) : Nat → Nat → Int → Hostlist → Option (Int × Hostlist)
  | 0, _, _, hl => some (-1, hl)
  | fuel + 1, i, count, hl => do
    let hr ← hl.range i
    let hit := hostrangeHnWithin hr hn
    let hl := hl.setSlot i (.live hit.2)
    if hit.1 then
      some (int32 (if hn.suffix.isSome then count + hn.num - hr.lo else count), hl)
    else findLoop hn fuel (i + 1) (int32 (count + hostrangeCount hr)) hl

/-- `hostlist_find`. -/
def hostlistFind (hl : Hostlist) (hostname : List Char) : Option (Int × Hostlist) :=
  findLoop (hostnameCreate hostname) hl.nranges 0 0 hl

/-! ## What a range takes for its own -/

/-- A number after it passed through an `int`. -/
def intNumber (k : Nat) : Nat := ulong (int32 k)

theorem intNumber_of_lt {k : Nat} (h : k < 2147483648) : intNumber k = k := by
  rw [intNumber, int32_of_range (by omega) (by omega)]
  exact ulong_of_lt (by omega)

/-- The number `hostname_create` reads off a name. -/
def numberOf (h : List Char) : Nat := min (value (tail h)) ulongMax

theorem hostnameCreate_of_number {h : List Char} (ht : tail h ≠ []) :
    hostnameCreate h = { hostname := h, pfx := stem h, num := numberOf h, suffix := tail h } :=
  hostnameCreate_of_suffix ht

/-- The range contains `h`, but splitting `h` does not lead to it: the prefix
ends in a digit, or the number is beyond an `int` and has more digits than the
width test allows. -/
def HostRange.Misses (r : HostRange) (h : List Char) : Prop :=
  h ∈ r.names ∧ r.singlehost = false ∧
    (¬ EndsPlain r.pfx ∨
      2147483648 ≤ value (tail h) ∧ max r.width (ndigits r.lo) < (tail h).length ∧
        max r.width (ndigits (intNumber (value (tail h)))) < (tail h).length)

/-- The range does not contain `h`, but covers its number, which is beyond an
`int`, and the width test lets it pass. -/
def HostRange.Mistakes (r : HostRange) (h : List Char) : Prop :=
  h ∉ r.names ∧ r.singlehost = false ∧ tail h ≠ [] ∧ r.pfx = stem h ∧
    2147483648 ≤ value (tail h) ∧ r.lo ≤ numberOf h ∧ numberOf h ≤ r.hi ∧
    (max r.width (ndigits r.lo) = max (tail h).length (ndigits r.lo) ∨
      max r.width (ndigits (intNumber (numberOf h))) =
        max (tail h).length (ndigits (intNumber (numberOf h))))

instance (r : HostRange) (h : List Char) : Decidable (r.Misses h) :=
  inferInstanceAs (Decidable (_ ∧ _ ∧ _))

instance (r : HostRange) (h : List Char) : Decidable (r.Mistakes h) :=
  inferInstanceAs (Decidable (_ ∧ _ ∧ _ ∧ _ ∧ _ ∧ _ ∧ _ ∧ _))

/-- The code's test, as a proposition. -/
def HostRange.Takes (r : HostRange) (h : List Char) : Prop :=
  (hostrangeHnWithin r (hostnameCreate h)).1 = true

instance (r : HostRange) (h : List Char) : Decidable (r.Takes h) :=
  inferInstanceAs (Decidable (_ = true))

theorem takes_single {r : HostRange} (hs : r.singlehost = true) (h : List Char) :
    r.Takes h ↔ h = r.pfx := by
  have hname : (hostnameCreate h).hostname = h := by
    by_cases ht : tail h = []
    · rw [hostnameCreate_of_plain ht]
    · rw [hostnameCreate_of_suffix ht]
  unfold HostRange.Takes hostrangeHnWithin
  rw [if_pos hs, hname]
  exact decide_eq_true_iff.trans strcmp_eq_zero_iff

theorem takes_plain {r : HostRange} (hs : r.singlehost = false) {h : List Char}
    (ht : tail h = []) : ¬ r.Takes h := by
  unfold HostRange.Takes hostrangeHnWithin
  rw [if_neg (by simp [hs]), hostnameCreate_of_plain ht]
  simp

/-- The test of a range with numbers, for a name that ends in digits. -/
theorem takes_iff {r : HostRange} (hs : r.singlehost = false) {h : List Char}
    (ht : tail h ≠ []) :
    r.Takes h ↔ r.pfx = stem h ∧ r.lo ≤ numberOf h ∧ numberOf h ≤ r.hi ∧
      (max r.width (ndigits r.lo) = max (tail h).length (ndigits r.lo) ∨
        max r.width (ndigits (intNumber (numberOf h))) =
          max (tail h).length (ndigits (intNumber (numberOf h)))) := by
  unfold HostRange.Takes hostrangeHnWithin
  rw [if_neg (by simp [hs]), hostnameCreate_of_number ht]
  simp only [ne_eq, strcmp_eq_zero_iff]
  by_cases hp : r.pfx = stem h
  · rw [if_neg (not_not_intro hp)]
    by_cases hin : numberOf h ≤ r.hi ∧ numberOf h ≥ r.lo
    · rw [if_pos hin, widthEquiv_spec]
      simp only [padded_eq_padded_iff]
      rw [← intNumber]
      split
      · simp_all
      · split <;> simp_all
    · rw [if_neg hin]
      have hno : ¬ (r.lo ≤ numberOf h ∧ numberOf h ≤ r.hi) := fun h' => hin ⟨h'.2, h'.1⟩
      simp only [Bool.false_eq_true, false_iff]
      rintro ⟨-, h1, h2, -⟩
      exact hno ⟨h1, h2⟩
  · rw [if_pos hp]
    simp [hp]

/-- The names of a range with numbers. -/
theorem mem_names_iff {r : HostRange} (hs : r.singlehost = false) {h : List Char} :
    h ∈ r.names ↔ ∃ k, r.lo ≤ k ∧ k ≤ r.hi ∧ h = r.pfx ++ padded r.width k := by
  unfold HostRange.names HostRange.numbers
  rw [if_neg (by simp [hs])]
  simp only [List.mem_map, List.mem_range'_1, HostRange.nameAt]
  constructor
  · rintro ⟨k, ⟨h1, h2⟩, rfl⟩
    exact ⟨k, h1, by omega, rfl⟩
  · rintro ⟨k, h1, h2, rfl⟩
    exact ⟨k, ⟨h1, by omega⟩, rfl⟩

theorem nameAt_injective (r : HostRange) : Function.Injective r.nameAt :=
  fun _ _ h => padded_inj (List.append_cancel_left h)

/-- A range names no host twice. -/
theorem names_nodup (r : HostRange) : r.names.Nodup := by
  unfold HostRange.names
  split
  · exact List.nodup_singleton _
  · exact List.Nodup.map (nameAt_injective r) (List.nodup_range' ..)

theorem tail_nameAt {r : HostRange} (hp : EndsPlain r.pfx) (k : Nat) :
    tail (r.nameAt k) = padded r.width k := tail_append_of_endsPlain hp (digits_padded _ _)

theorem stem_nameAt {r : HostRange} (hp : EndsPlain r.pfx) (k : Nat) :
    stem (r.nameAt k) = r.pfx := stem_append_of_endsPlain hp (digits_padded _ _)

/-- The code's test against membership: a range takes the names it contains and
does not miss, and those it mistakes for its own. -/
theorem takes_iff_of_ok {r : HostRange} (hr : r.Ok) (h : List Char) :
    r.Takes h ↔ h ∈ r.names ∧ ¬ r.Misses h ∨ r.Mistakes h := by
  cases hs : r.singlehost with
  | true =>
    have hnames : r.names = [r.pfx] := by rw [HostRange.names, if_pos hs]
    rw [takes_single hs, hnames, List.mem_singleton]
    constructor
    · rintro rfl
      refine .inl ⟨rfl, ?_⟩
      rintro ⟨-, h2, -⟩
      simp [hs] at h2
    · rintro (⟨rfl, -⟩ | ⟨-, h2, -⟩)
      · rfl
      · simp [hs] at h2
  | false =>
    by_cases ht : tail h = []
    · -- no trailing digits: neither the test nor membership holds
      refine iff_of_false (takes_plain hs ht) ?_
      rintro (⟨h1, -⟩ | ⟨-, -, h3, -⟩)
      · obtain ⟨k, -, -, rfl⟩ := (mem_names_iff hs).mp h1
        rw [tail_append_digits (digits_padded _ _)] at ht
        exact padded_ne_nil _ _ (List.append_eq_nil_iff.mp ht).2
      · exact h3 ht
    · rw [takes_iff hs ht]
      by_cases hmem : h ∈ r.names
      · have hnot : ¬ r.Mistakes h := fun hm => hm.1 hmem
        obtain ⟨k, hlo, hhi, hname⟩ := (mem_names_iff hs).mp hmem
        by_cases hp : EndsPlain r.pfx
        · -- the split gives back the prefix and the number
          have htail : tail h = padded r.width k := by rw [hname]; exact tail_nameAt hp k
          have hstem : stem h = r.pfx := by rw [hname]; exact stem_nameAt hp k
          have hval : value (tail h) = k := by rw [htail, value_padded]
          have hhilt := hr.hi_lt
          have hmax : ulongMax = 18446744073709551615 := rfl
          have hnum : numberOf h = k := by rw [numberOf, hval]; omega
          have hlen : (tail h).length = max r.width (ndigits k) := by
            rw [htail, length_padded]
          have hmono := ndigits_mono hlo
          have hsmall : k < 2147483648 →
              max r.width (ndigits (intNumber k)) = (tail h).length := by
            intro hk
            rw [intNumber_of_lt hk, hlen]
          rw [hnum]
          simp only [HostRange.Misses, hval, hmem, hnot, hs, hp, hstem, hlo, hhi, true_and,
            not_true_eq_false, false_or, or_false]
          omega
        · -- the stem of the name is shorter than the prefix
          refine iff_of_false ?_ ?_
          · rintro ⟨h1, -⟩
            exact hp (h1 ▸ endsPlain_stem h)
          · rintro (⟨-, h2⟩ | h2)
            · exact h2 ⟨hmem, hs, .inl hp⟩
            · exact hnot h2
      · constructor
        · rintro ⟨h1, h2, h3, h4⟩
          refine .inr ⟨hmem, hs, ht, h1, ?_, h2, h3, h4⟩
          by_contra hlt
          have hmax : ulongMax = 18446744073709551615 := rfl
          have hnum : numberOf h = value (tail h) := by rw [numberOf]; omega
          rw [hnum] at h2 h3 h4
          rw [intNumber_of_lt (by omega)] at h4
          -- at its own number the width test compares the printed texts
          have hpad : padded r.width (value (tail h)) = tail h := by
            have hval := padded_value ht (digits_tail h)
            rw [← hval]
            rw [value_padded]
            rw [padded_eq_padded_iff]
            have := ndigits_mono h2
            omega
          apply hmem
          rw [mem_names_iff hs]
          exact ⟨value (tail h), h2, h3, by rw [hpad, h1, stem_append_tail]⟩
        · rintro (⟨h1, -⟩ | ⟨-, -, -, h1, -, h2, h3, h4⟩)
          · exact absurd h1 hmem
          · exact ⟨h1, h2, h3, h4⟩

/-- The test changes at most the width of a range, and not what it prints. -/
theorem hostrangeHnWithin_reprint (r : HostRange) (hn : Hostname) :
    Reprint r (hostrangeHnWithin r hn).2 := by
  unfold hostrangeHnWithin
  split
  · exact .refl r
  · split
    · exact .refl r
    · split
      · exact .refl r
      · split
        · rename_i suffix _ _ _
          simp only [widthEquiv_spec]
          split
          · rename_i hw
            exact ⟨suffix.length, rfl, hw.symm⟩
          · split
            · exact .refl r
            · exact .refl r
        · exact .refl r

/-- Where in a range the code looks for a name it takes. -/
theorem idxOf_names {r : HostRange} (hr : r.Ok) {h : List Char} (hmem : h ∈ r.names)
    (hmiss : ¬ r.Misses h) (count : Int) :
    (if (hostnameCreate h).suffix.isSome then count + (hostnameCreate h).num - r.lo
      else count) = count + r.names.idxOf h := by
  cases hs : r.singlehost with
  | true =>
    have hnames : r.names = [r.pfx] := by rw [HostRange.names, if_pos hs]
    rw [hnames, List.mem_singleton] at hmem
    subst hmem
    have ht : tail r.pfx = [] := endsPlain_iff_tail.mp (hr.plain hs)
    rw [hostnameCreate_of_plain ht, hnames, List.idxOf_cons_self]
    simp
  | false =>
    have hp : EndsPlain r.pfx := by
      by_contra hp
      exact hmiss ⟨hmem, hs, .inl hp⟩
    obtain ⟨k, hlo, hhi, rfl⟩ := (mem_names_iff hs).mp hmem
    have htail : tail (r.pfx ++ padded r.width k) = padded r.width k := tail_nameAt hp k
    have hne : tail (r.pfx ++ padded r.width k) ≠ [] := by
      rw [htail]
      exact padded_ne_nil _ _
    have hnum : numberOf (r.pfx ++ padded r.width k) = k := by
      have hhilt := hr.hi_lt
      have hmax : ulongMax = 18446744073709551615 := rfl
      rw [numberOf, htail, value_padded]
      omega
    have hidx : r.names.idxOf (r.nameAt k) = k - r.lo := by
      have hnames : r.names = r.numbers.map r.nameAt := by
        rw [HostRange.names, if_neg (by simp [hs])]
      have hlen : k - r.lo < r.names.length := by
        rw [length_names, hs]
        simp
        omega
      have hget : r.names[k - r.lo] = r.nameAt k := by
        simp only [hnames, HostRange.numbers, List.getElem_map, List.getElem_range']
        congr 1
        omega
      rw [← hget]
      exact (names_nodup r).idxOf_getElem _ hlen
    have hidx' : r.names.idxOf (r.pfx ++ padded r.width k) = k - r.lo := hidx
    rw [hostnameCreate_of_number hne, hnum, hidx', if_pos (by simp)]
    simp only []
    omega

/-! ## The search -/

/-- The search as a function of the ranges. -/
def searchRanges (h : List Char) : Int → List HostRange → Int
  | _, [] => -1
  | count, r :: rs =>
    if r.Takes h then
      int32 (if (hostnameCreate h).suffix.isSome then count + (hostnameCreate h).num - r.lo
        else count)
    else searchRanges h (int32 (count + hostrangeCount r)) rs

/-- The loop searches the ranges and at most reprints them. -/
theorem findLoop_ofRanges (h : List Char) (free : Nat) (n : Int) :
    ∀ (ss as : List HostRange) (count : Int), ∃ ts, List.Forall₂ Reprint ss ts ∧
      findLoop (hostnameCreate h) ss.length as.length count
        (Hostlist.ofRanges (as ++ ss) free n) =
          some (searchRanges h count ss, Hostlist.ofRanges (as ++ ts) free n) := by
  intro ss
  induction ss with
  | nil =>
    intro as count
    exact ⟨[], .nil, rfl⟩
  | cons r ss ih =>
    intro as count
    have hrep := hostrangeHnWithin_reprint r (hostnameCreate h)
    rw [List.length_cons, findLoop, ofRanges_range, Option.bind_eq_bind, Option.bind_some]
    simp only [setSlot_ofRanges]
    rw [searchRanges]
    by_cases ht : r.Takes h
    · have htest : (hostrangeHnWithin r (hostnameCreate h)).1 = true := ht
      rw [if_pos ht, if_pos htest]
      refine ⟨(hostrangeHnWithin r (hostnameCreate h)).2 :: ss, .cons hrep ?_, rfl⟩
      exact List.forall₂_same.mpr fun s _ => .refl s
    · have htest : ¬ (hostrangeHnWithin r (hostnameCreate h)).1 = true := ht
      rw [if_neg ht, if_neg htest]
      obtain ⟨ts, hts, hloop⟩ := ih (as ++ [(hostrangeHnWithin r (hostnameCreate h)).2])
        (int32 (count + hostrangeCount r))
      refine ⟨(hostrangeHnWithin r (hostnameCreate h)).2 :: ts, .cons hrep hts, ?_⟩
      rw [List.length_append, List.length_singleton] at hloop
      rw [List.append_assoc, List.append_assoc] at hloop
      exact hloop

/-- Names are equal when their letters are. -/
local instance lawfulBEq_name : LawfulBEq (List Char) := inferInstance

/-- The index of the first occurrence of a name in a list that starts at
`index`, `-1` when it does not occur. -/
def indexFrom (h : List Char) (index : Nat) (ns : List (List Char)) : Int :=
  if h ∈ ns then (index + ns.idxOf h : Nat) else -1

theorem indexFrom_of_mem {h : List Char} {r : HostRange} (hmem : h ∈ r.names) (index : Nat)
    (rs : List HostRange) :
    indexFrom h index (names (r :: rs)) = (index + r.names.idxOf h : Nat) := by
  rw [names_cons, indexFrom, if_pos (List.mem_append_left _ hmem),
    List.idxOf_append_of_mem hmem]

theorem indexFrom_of_notMem {h : List Char} {r : HostRange} (hmem : h ∉ r.names)
    (index : Nat) (rs : List HostRange) :
    indexFrom h index (names (r :: rs)) =
      indexFrom h (index + r.names.length) (names rs) := by
  rw [names_cons, indexFrom, indexFrom]
  by_cases hrest : h ∈ names rs
  · rw [if_pos hrest, if_pos (List.mem_append_right _ hrest),
      List.idxOf_append_of_notMem hmem, Nat.add_assoc]
  · rw [if_neg hrest, if_neg (by simp [hmem, hrest])]

theorem indexFrom_range (h : List Char) (index : Nat) (ns : List (List Char)) :
    indexFrom h index ns = -1 ∨
      ∃ j, index ≤ j ∧ j < index + ns.length ∧ indexFrom h index ns = (j : Nat) := by
  unfold indexFrom
  by_cases hmem : h ∈ ns
  · have hidx := List.idxOf_lt_length_of_mem hmem
    exact .inr ⟨index + ns.idxOf h, by omega, by omega, if_pos hmem⟩
  · exact .inl (if_neg hmem)

/-- The first range that contains `h` or mistakes it for its own contains it and
does not miss it, and up to there `count` has kept up with the index, which
fits an `int`. -/
def FindOk (h : List Char) : Nat → Nat → List HostRange → Prop
  | _, _, [] => True
  | count, index, r :: rs =>
    if h ∈ r.names then
      ¬ r.Misses h ∧ int32 (count + r.names.idxOf h : Nat) = (index + r.names.idxOf h : Nat)
    else ¬ r.Mistakes h ∧ FindOk h (count + hostrangeCount r) (index + r.names.length) rs

instance decidableFindOk (h : List Char) :
    ∀ (count index : Nat) (rs : List HostRange), Decidable (FindOk h count index rs)
  | _, _, [] => isTrue trivial
  | count, index, r :: rs =>
    have := decidableFindOk h (count + hostrangeCount r) (index + r.names.length) rs
    if hmem : h ∈ r.names then decidable_of_iff (_ ∧ _) (by rw [FindOk, if_pos hmem])
    else decidable_of_iff (_ ∧ _) (by rw [FindOk, if_neg hmem])

/-- The index the search returns for a name taken by the range at hand. -/
theorem searchRanges_of_mem {h : List Char} {r : HostRange} (hr : r.Ok) (hmem : h ∈ r.names)
    (hmiss : ¬ r.Misses h) (count : Nat) (rs : List HostRange) :
    searchRanges h (int32 count) (r :: rs) = int32 (count + r.names.idxOf h : Nat) := by
  have htakes : r.Takes h := (takes_iff_of_ok hr h).mpr (.inl ⟨hmem, hmiss⟩)
  rw [searchRanges, if_pos htakes, idxOf_names hr hmem hmiss, int32_int32_add]
  push_cast
  rfl

/-- A range that mistakes a name for its own reports an index of its own. -/
theorem searchRanges_of_mistakes {h : List Char} {r : HostRange} (hr : r.Ok)
    (hm : r.Mistakes h) (count : Nat) (rs : List HostRange) :
    ∃ j, j < r.names.length ∧
      searchRanges h (int32 count) (r :: rs) = int32 (count + j : Nat) := by
  have htakes : r.Takes h := (takes_iff_of_ok hr h).mpr (.inr hm)
  obtain ⟨-, hs, ht, -, -, hlo, hhi, -⟩ := hm
  refine ⟨numberOf h - r.lo, ?_, ?_⟩
  · rw [length_names, if_neg (by simp [hs])]
    omega
  · have hoff : int32 count + (numberOf h : Int) - r.lo =
        int32 count + (numberOf h - r.lo : Nat) := by omega
    rw [searchRanges, if_pos htakes, hostnameCreate_of_number ht, if_pos (by simp)]
    simp only []
    rw [hoff, int32_int32_add]
    push_cast
    rfl

theorem searchRanges_of_not {h : List Char} {r : HostRange} (htakes : ¬ r.Takes h)
    (count : Nat) (rs : List HostRange) :
    searchRanges h (int32 count) (r :: rs) =
      searchRanges h (int32 (count + hostrangeCount r : Nat)) rs := by
  rw [searchRanges, if_neg htakes, int32_int32_add]
  push_cast
  rfl

theorem not_takes_of_misses {h : List Char} {r : HostRange} (hr : r.Ok) (hmiss : r.Misses h) :
    ¬ r.Takes h := by
  rw [takes_iff_of_ok hr]
  rintro (⟨-, h1⟩ | h1)
  · exact h1 hmiss
  · exact h1.1 hmiss.1

theorem not_takes_of_notMem {h : List Char} {r : HostRange} (hr : r.Ok) (hmem : h ∉ r.names)
    (hm : ¬ r.Mistakes h) : ¬ r.Takes h := by
  rw [takes_iff_of_ok hr]
  rintro (⟨h1, -⟩ | h1)
  · exact hmem h1
  · exact hm h1

/-- The search is right when `FindOk` holds from where it stands. -/
theorem searchRanges_of_findOk {h : List Char} {rs : List HostRange} :
    ∀ {count index : Nat}, (∀ r ∈ rs, r.Ok) → FindOk h count index rs →
      searchRanges h (int32 count) rs = indexFrom h index (names rs) := by
  induction rs with
  | nil =>
    intro count index _ _
    rfl
  | cons r rs ih =>
    intro count index hok hfind
    have hr := hok r (by simp)
    have hrest : ∀ s ∈ rs, s.Ok := fun s hs => hok s (by simp [hs])
    rw [FindOk] at hfind
    by_cases hmem : h ∈ r.names
    · rw [if_pos hmem] at hfind
      rw [searchRanges_of_mem hr hmem hfind.1, indexFrom_of_mem hmem]
      exact hfind.2
    · rw [if_neg hmem] at hfind
      rw [searchRanges_of_not (not_takes_of_notMem hr hmem hfind.1), indexFrom_of_notMem hmem]
      exact ih hrest hfind.2

/-- The count of an ordered range whose hosts an `unsigned long` can count. -/
theorem hostrangeCount_of_length {r : HostRange} (ho : r.Ordered)
    (h : r.names.length < 4294967295) : hostrangeCount r = r.names.length := by
  rw [hostrangeCount_mod ho]
  omega

/-- Whatever the search returns is `-1` or an index behind the ranges already
passed. -/
theorem searchRanges_range {h : List Char} {rs : List HostRange} :
    ∀ {index : Nat}, (∀ r ∈ rs, r.Pushed) → index + (names rs).length < 4294967295 →
      searchRanges h (int32 index) rs = -1 ∨
        ∃ j, index ≤ j ∧ j < index + (names rs).length ∧
          searchRanges h (int32 index) rs = int32 (j : Nat) := by
  induction rs with
  | nil => exact fun _ _ => .inl rfl
  | cons r rs ih =>
    intro index hok hlen
    have hr := hok r (by simp)
    rw [names_cons, List.length_append] at hlen ⊢
    by_cases htakes : r.Takes h
    · right
      rcases (takes_iff_of_ok hr.toOk h).mp htakes with ⟨hmem, hmiss⟩ | hm
      · have hidx := List.idxOf_lt_length_of_mem hmem
        exact ⟨index + r.names.idxOf h, by omega, by omega,
          searchRanges_of_mem hr.toOk hmem hmiss index rs⟩
      · obtain ⟨j, hj, hres⟩ := searchRanges_of_mistakes hr.toOk hm index rs
        exact ⟨index + j, by omega, by omega, hres⟩
    · rw [searchRanges_of_not htakes, hostrangeCount_of_length hr.ordered (by omega)]
      have hrest := @ih (index + r.names.length) (fun s hs => hok s (by simp [hs])) (by omega)
      rcases hrest with h1 | ⟨j, h1, h2, h3⟩
      · exact .inl h1
      · exact .inr ⟨j, by omega, by omega, h3⟩

/-- Indices below 2^32 - 1 keep apart as `int`s. -/
theorem int32_index_ne {i j : Nat} (hi : i < 4294967295) (hj : j < 4294967295) (hne : i ≠ j) :
    int32 (j : Nat) ≠ (i : Int) := by
  unfold int32
  rw [Int.bmod_def]
  split <;> omega

theorem int32_index_ne_neg {j : Nat} (hj : j < 4294967295) : int32 (j : Nat) ≠ -1 := by
  unfold int32
  rw [Int.bmod_def]
  split <;> omega

/-- Where an index cannot wrap onto another, the search is right only when
`FindOk` holds. -/
theorem findOk_of_searchRanges {h : List Char} {rs : List HostRange} :
    ∀ {index : Nat}, (∀ r ∈ rs, r.Pushed) → index + (names rs).length < 4294967295 →
      searchRanges h (int32 index) rs = indexFrom h index (names rs) →
      FindOk h index index rs := by
  induction rs with
  | nil => exact fun _ _ _ => trivial
  | cons r rs ih =>
    intro index hok hlen hsearch
    have hr := hok r (by simp)
    have hrest : ∀ s ∈ rs, s.Pushed := fun s hs => hok s (by simp [hs])
    rw [names_cons, List.length_append] at hlen
    have hcount := hostrangeCount_of_length hr.ordered (by omega)
    rw [FindOk]
    by_cases hmem : h ∈ r.names
    · have hidx := List.idxOf_lt_length_of_mem hmem
      rw [if_pos hmem]
      rw [indexFrom_of_mem hmem] at hsearch
      by_cases hmiss : r.Misses h
      · -- the search went on past the name, to -1 or a larger index
        rw [searchRanges_of_not (not_takes_of_misses hr.toOk hmiss), hcount] at hsearch
        rcases @searchRanges_range h rs (index + r.names.length) hrest (by omega)
          with h1 | ⟨j, h1, h2, h3⟩
        · omega
        · rw [h3] at hsearch
          exact absurd hsearch (int32_index_ne (by omega) (by omega) (by omega))
      · rw [searchRanges_of_mem hr.toOk hmem hmiss] at hsearch
        exact ⟨hmiss, hsearch⟩
    · rw [if_neg hmem, hcount]
      rw [indexFrom_of_notMem hmem] at hsearch
      by_cases hm : r.Mistakes h
      · -- the search stopped at an index of this range
        obtain ⟨j, hj, hres⟩ := searchRanges_of_mistakes hr.toOk hm index rs
        rw [hres] at hsearch
        rcases indexFrom_range h (index + r.names.length) (names rs)
          with h1 | ⟨i, h1, h2, h3⟩
        · rw [h1] at hsearch
          exact absurd hsearch (int32_index_ne_neg (by omega))
        · rw [h3] at hsearch
          exact absurd hsearch (int32_index_ne (by omega) (by omega) (by omega))
      · rw [searchRanges_of_not (not_takes_of_notMem hr.toOk hmem hm), hcount] at hsearch
        exact ⟨hm, ih hrest (by omega) hsearch⟩

/-- The index of the first occurrence of a name, `-1` when it does not occur. -/
def firstIndex (h : List Char) (ns : List (List Char)) : Int :=
  if h ∈ ns then ns.idxOf h else -1

theorem indexFrom_zero (h : List Char) (ns : List (List Char)) :
    indexFrom h 0 ns = firstIndex h ns := by
  rw [indexFrom, firstIndex, Nat.zero_add]

/-- The search reads a list that is an array of ranges, and leaves an array of
ranges with the same names. -/
theorem Holds.find {hl : Hostlist} {rs : List HostRange} (h : Holds hl rs)
    (host : List Char) :
    ∃ hl' rs', hostlistFind hl host = some (searchRanges host 0 rs, hl') ∧
      hl'.ranges = some rs' ∧ names rs' = names rs := by
  obtain ⟨⟨free, rfl⟩, -⟩ := h
  obtain ⟨ts, hts, hloop⟩ := findLoop_ofRanges host free (int32 (hosts rs)) rs [] 0
  refine ⟨_, ts, hloop, ofRanges_ranges ts free _, ?_⟩
  clear hloop
  induction hts with
  | nil => rfl
  | cons hrep _ ih => rw [names_cons, names_cons, ih, hrep.names]

/-- On every list built from strings `hostlist_find` returns an index. It is the
first one, or `-1` for a name that does not occur, whenever `FindOk` holds of the
ranges; and only then, when their bounds are in order and there are fewer than
2^32 - 1 hosts. -/
theorem hostlistFind_eq_firstIndex {hl : Hostlist} (hb : Built hl) (host : List Char) :
    ∃ rs ret hl', hl.ranges = some rs ∧ hostlistFind hl host = some (ret, hl') ∧
      (FindOk host 0 0 rs → ret = firstIndex host (names rs)) ∧
      ((∀ r ∈ rs, r.Ordered) → (names rs).length < 4294967295 →
        ret = firstIndex host (names rs) → FindOk host 0 0 rs) := by
  obtain ⟨rs, hrs⟩ := hb.holds
  obtain ⟨hl', -, hfind, -, -⟩ := hrs.find host
  have hzero : int32 ((0 : Nat) : Int) = 0 := rfl
  refine ⟨rs, _, hl', hrs.ranges, hfind, fun hok => ?_, fun hord hlen hret => ?_⟩
  · have hsearch := searchRanges_of_findOk hrs.ok hok
    rw [indexFrom_zero, hzero] at hsearch
    exact hsearch
  · refine findOk_of_searchRanges (fun r hr => ⟨hrs.ok r hr, hord r hr⟩) (by omega) ?_
    rw [indexFrom_zero, hzero]
    exact hret

theorem hostlistFind_eq_firstIndex_range :
    ∃ hl hl', hostlistCreate "b,a[1-3]".toList = .ok hl ∧
      hostlistFind hl "a3".toList = some (3, hl') := by
  have hcreate : hostlistCreate "b,a[1-3]".toList =
      .ok (Hostlist.ofRanges [hostrangeCreateSingle ['b'], hostrangeCreate ['a'] 1 3 1] 14 4) :=
    rfl
  obtain ⟨rs, ret, hl', hrs, hfind, hok, -⟩ :=
    hostlistFind_eq_firstIndex (.create hcreate) "a3".toList
  rw [ofRanges_ranges] at hrs
  obtain rfl := Option.some.inj hrs
  refine ⟨_, hl', hcreate, ?_⟩
  rw [hfind, hok (by decide)]
  rfl

/-- A host of a range whose prefix ends in a digit is in the list and not found. -/
theorem hostlistFind_digit_prefix :
    ∃ hl rs, hostlistCreate "a1[2-3]".toList = .ok hl ∧ hl.ranges = some rs ∧
      firstIndex "a12".toList (names rs) = 0 ∧
      (hostlistFind hl "a12".toList).map (·.1) = some (-1) := by
  have hcreate : hostlistCreate "a1[2-3]".toList =
      .ok (Hostlist.ofRanges [hostrangeCreate ['a', '1'] 2 3 1] 15 2) := rfl
  exact ⟨_, _, hcreate, ofRanges_ranges _ _ _, by decide, by decide⟩

end Slurm.Hosts
