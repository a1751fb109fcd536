import SlurmLite.Hostlist.Print

/-!
# Removing hosts

`hostlist_pop`, `hostlist_shift`, `hostlist_pop_range`, `hostlist_shift_range`
and `hostlist_delete_nth` on the range array, and what each does to a list of
ranges.

* **One host** (`hostlistDeleteNth_ofRanges`, `hostlistPop_ofRanges`,
  `hostlistShift_ofRanges`): a range is cut at one number (`HostRange.without`).
* **One group** (`hostlistPopRange_ofRanges`, `hostlistShiftRange_ofRanges`):
  the ranges of a group go through a temporary list, which may join them, so
  that fewer ranges are counted as removed than are.
-/

namespace Slurm.Hosts

open Base.Text Base.CLib Base.Buffer

/-! ## The functions -/

/-- Reading the pointer at `i`, which may be NULL. -/
def Hostlist.deref (hl : Hostlist) (i : Nat) : Option (Option HostRange) :=
  match hl.slot i with
  | .null => some none
  | .live r => some (some r)
  | .freed => none

/-- `hl->hr[i] = s`. -/
def Hostlist.setSlot (hl : Hostlist) (i : Nat) (s : Slot) : Hostlist :=
  { hl with hr := hl.hr.set i s }

/-- `hostlist_pop`. -/
def hostlistPop (hl : Hostlist) : Option (Option (List Char) × Hostlist) :=
  if hl.nhosts > 0 then
    if hl.nranges = 0 then none
    else
      (hl.range (hl.nranges - 1)).map fun hr =>
        let popped := hostrangePop hr
        let hl := { hl with nhosts := hl.nhosts - 1 }
        if hostrangeEmpty popped.2 then
          (popped.1, { hl.setSlot (hl.nranges - 1) .null with nranges := hl.nranges - 1 })
        else (popped.1, hl.setSlot (hl.nranges - 1) (.live popped.2))
  else some (none, hl)

/-- `hostlist_shift`. -/
def hostlistShift (hl : Hostlist) : Option (Option (List Char) × Hostlist) :=
  if hl.nhosts > 0 then
    (hl.range 0).map fun hr =>
      let shifted := hostrangeShift hr
      let hl := { hl with nhosts := hl.nhosts - 1 }.setSlot 0 (.live shifted.2)
      if hostrangeEmpty shifted.2 then (shifted.1, hostlistDeleteRange hl 0)
      else (shifted.1, hl)
  else some (none, hl)

/-- `MAXHOSTRANGELEN`. -/
def maxHostRangeLen : Nat := 8192

/-- The text `hostlist_pop_range` and `hostlist_shift_range` return. -/
def rangedCopy (hltmp : Hostlist) : Option (List Char) :=
  (hostlistRangedString hltmp maxHostRangeLen
    (List.replicate (maxHostRangeLen + 1) nul)).map fun r => cstr r.2

/-- The first index of the last group, searched downwards from `i`. -/
def tailStart (hl : Hostlist) (tail : Option HostRange) : Nat → Option Nat
  | 0 => some 0
  | i + 1 => do
    let h ← hl.deref i
    if hostrangeWithinRange tail h then tailStart hl tail i else some (i + 1)

/-- Moves the range at `i` to the list `hltmp`; `hl` keeps `s` in its slot. -/
def moveRange (s : Slot) (hltmp hl : Hostlist) (i : Nat) : Option (Hostlist × Hostlist) := do
  let hr ← hl.range i
  let (hltmp, _) ← hostlistPushRange hltmp hr
  some (hltmp, hl.setSlot i s)

/-- The second loop of `hostlist_pop_range`. -/
def popLoop : List Nat → Hostlist → Hostlist → Option (Hostlist × Hostlist)
  | [], hltmp, hl => some (hltmp, hl)
  | i :: is, hltmp, hl => do
    let (hltmp, hl) ← moveRange .null hltmp hl i
    popLoop is hltmp hl

/-- The counters after the ranges of `hltmp` were taken out of `hl`. -/
def subtractTmp (hltmp hl : Hostlist) : Hostlist :=
  { hl with
    nhosts := int32 (hl.nhosts - hltmp.nhosts)
    nranges := hl.nranges - hltmp.nranges }

/-- `hostlist_pop_range`. -/
def hostlistPopRange (hl : Hostlist) : Option (Option (List Char) × Hostlist) :=
  if hl.nranges < 1 then some (none, hl)
  else do
    let tail ← hl.deref (hl.nranges - 1)
    let i ← tailStart hl tail (hl.nranges - 1)
    let (hltmp, hl) ← popLoop (List.range' i (hl.nranges - i)) hostlistNew hl
    let buf ← rangedCopy hltmp
    some (some buf, subtractTmp hltmp hl)

/-- The first loop of `hostlist_shift_range`: the index it stops at and both
lists. The slots it frees keep their pointers. -/
def shiftLoop : Nat → Nat → Hostlist → Hostlist → Option (Nat × Hostlist × Hostlist)
  | 0, i, hltmp, hl => some (i, hltmp, hl)
  | fuel + 1, i, hltmp, hl => do
    let (hltmp, hl) ← moveRange .freed hltmp hl i
    if i + 1 < hl.nranges then
      let first ← hltmp.deref 0
      let next ← hl.deref (i + 1)
      if hostrangeWithinRange first next then shiftLoop fuel (i + 1) hltmp hl
      else some (i + 1, hltmp, hl)
    else some (i + 1, hltmp, hl)

/-- The second loop of `hostlist_shift_range`: slot `i` moves down by `k`. -/
def moveDown (k : Nat) : List Nat → Hostlist → Hostlist
  | [], hl => hl
  | i :: is, hl => moveDown k is ((hl.setSlot (i - k) (hl.slot i)).setSlot i .null)

/-- `hostlist_shift_range`. -/
def hostlistShiftRange (hl : Hostlist) : Option (Option (List Char) × Hostlist) :=
  if hl.nranges = 0 then some (none, hl)
  else do
    let (i, hltmp, hl) ← shiftLoop hl.nranges 0 hostlistNew hl
    let hl := moveDown hltmp.nranges (List.range' i (hl.nranges - i)) hl
    let buf ← rangedCopy hltmp
    some (some buf, subtractTmp hltmp hl)

/-- The branches of `hostlist_delete_nth` for host `num` of the range at `i`. -/
def deleteFromRange (hl : Hostlist) (i : Nat) (hr : HostRange) (num : Nat) : Hostlist :=
  if hr.singlehost then hostlistDeleteRange hl i
  else
    match hostrangeDeleteHost hr num with
    | (some new, hr) => hostlistInsertRange (hl.setSlot i (.live hr)) new (i + 1)
    | (none, hr) =>
      if hostrangeEmpty hr then hostlistDeleteRange (hl.setSlot i (.live hr)) i
      else hl.setSlot i (.live hr)

/-- The loop of `hostlist_delete_nth`. -/
def nthLoop (hl : Hostlist) (n : Int) : Nat → Nat → Int → Option Hostlist
  | 0, _, _ => some hl
  | fuel + 1, i, count => do
    let hr ← hl.range i
    let numInRange := int32 (hostrangeCount hr)
    if n ≤ numInRange - 1 + count then
      some (deleteFromRange hl i hr (ulong (hr.lo + n - count)))
    else nthLoop hl n fuel (i + 1) (int32 (count + numInRange))

/-- `hostlist_delete_nth`. -/
def hostlistDeleteNth (hl : Hostlist) (n : Int) : Option Hostlist :=
  (nthLoop hl n hl.nranges 0 0).map fun hl => { hl with nhosts := int32 (hl.nhosts - 1) }

/-! ## Cutting a range at one number -/

/-- What is left of a range without host number `k`. -/
def HostRange.without (r : HostRange) (k : Nat) : List HostRange :=
  if r.singlehost then []
  else
    (if r.lo < k then [{ r with hi := k - 1 }] else []) ++
      (if k < r.hi then [{ r with lo := k + 1 }] else [])

theorem range'_eraseIdx (lo m j : Nat) (h : j < m) :
    (List.range' lo m).eraseIdx j = List.range' lo j ++ List.range' (lo + j + 1) (m - j - 1) := by
  have hsplit : List.range' lo m =
      List.range' lo j ++ (lo + j) :: List.range' (lo + j + 1) (m - j - 1) := by
    rw [← List.range'_succ, List.range'_append_1]
    congr 1
    omega
  rw [hsplit, List.eraseIdx_append_of_length_le (by simp)]
  simp

/-- A cut takes one name out. -/
theorem names_without {r : HostRange} {j : Nat} (h : j < r.names.length) :
    names (r.without (r.lo + j)) = r.names.eraseIdx j := by
  rw [length_names] at h
  cases hs : r.singlehost with
  | true =>
    rw [hs] at h
    obtain rfl : j = 0 := by simpa using h
    simp [HostRange.without, HostRange.names, hs]
  | false =>
    rw [hs] at h
    simp only [Bool.false_eq_true, if_false] at h
    have herase : r.names.eraseIdx j =
        (List.range' r.lo j).map r.nameAt ++
          (List.range' (r.lo + j + 1) (r.hi + 1 - r.lo - j - 1)).map r.nameAt := by
      rw [HostRange.names, hs, if_neg (by simp), List.eraseIdx_map, HostRange.numbers,
        range'_eraseIdx _ _ _ h, List.map_append]
    have hlow : names (if r.lo < r.lo + j then [{ r with hi := r.lo + j - 1 }] else []) =
        (List.range' r.lo j).map r.nameAt := by
      split
      · rw [names_cons, names_nil, List.append_nil, HostRange.names, HostRange.numbers]
        simp only [hs, Bool.false_eq_true, if_false]
        rw [show r.lo + j - 1 + 1 - r.lo = j by omega]
        rfl
      · obtain rfl : j = 0 := by omega
        rfl
    have hhigh : names (if r.lo + j < r.hi then [{ r with lo := r.lo + j + 1 }] else []) =
        (List.range' (r.lo + j + 1) (r.hi + 1 - r.lo - j - 1)).map r.nameAt := by
      split
      · rw [names_cons, names_nil, List.append_nil, HostRange.names, HostRange.numbers]
        simp only [hs, Bool.false_eq_true, if_false]
        rw [show r.hi + 1 - (r.lo + j + 1) = r.hi + 1 - r.lo - j - 1 by omega]
        rfl
      · rw [show r.hi + 1 - r.lo - j - 1 = 0 by omega]
        rfl
    rw [herase, ← hlow, ← hhigh, ← names_append, HostRange.without, hs, if_neg (by simp)]

theorem without_ok {r : HostRange} {k : Nat} (hr : r.Ok) (hk : k ≤ r.hi) :
    ∀ s ∈ r.without k, s.Ok ∧ s.Ordered := by
  intro s hs
  rw [HostRange.without] at hs
  cases hsing : r.singlehost with
  | true => simp [hsing] at hs
  | false =>
    have hlo := hr.lo_lt
    have hhi := hr.hi_lt
    rw [hsing, if_neg (by simp)] at hs
    rcases List.mem_append.mp hs with hs | hs
    · split at hs
      · rename_i hlt
        obtain rfl := List.mem_singleton.mp hs
        have hbound : k - 1 < 18446744073709551616 := by omega
        exact ⟨.of_bounds rfl hlo hbound, fun _ => Nat.le_sub_one_of_lt hlt⟩
      · cases hs
    · split at hs
      · rename_i hlt
        obtain rfl := List.mem_singleton.mp hs
        have hbound : k + 1 < 18446744073709551616 := by omega
        exact ⟨.of_bounds rfl hbound hhi, fun _ => hlt⟩
      · cases hs

/-- Cutting a range of a sound list leaves it sound, without one name. -/
theorem Sound.without {as bs : List HostRange} {r : HostRange} (h : Sound (as ++ r :: bs))
    {j : Nat} (hj : j < r.names.length) :
    Sound (as ++ r.without (r.lo + j) ++ bs) ∧
      names (as ++ r.without (r.lo + j) ++ bs) =
        (names (as ++ r :: bs)).eraseIdx ((names as).length + j) := by
  have hr : r.Ok := h.ok r (by simp)
  have hk : r.singlehost = false → r.lo + j ≤ r.hi := by
    intro hs
    rw [length_names, hs] at hj
    simp at hj
    omega
  have hparts : ∀ s ∈ r.without (r.lo + j), s.Ok ∧ s.Ordered := by
    cases hs : r.singlehost with
    | true => simp [HostRange.without, hs]
    | false => exact without_ok hr (hk hs)
  have hnames : names (as ++ r.without (r.lo + j) ++ bs) =
      (names (as ++ r :: bs)).eraseIdx ((names as).length + j) := by
    rw [names_append, names_append, names_append, names_cons, names_without hj,
      List.eraseIdx_append_of_length_le (by omega), Nat.add_sub_cancel_left,
      List.eraseIdx_append_of_lt_length hj, List.append_assoc]
  refine ⟨⟨fun s hs => ?_, fun s hs => ?_, ?_⟩, hnames⟩
  · rcases List.mem_append.mp hs with hs | hs
    · rcases List.mem_append.mp hs with hs | hs
      · exact h.ok s (by simp [hs])
      · exact (hparts s hs).1
    · exact h.ok s (by simp [hs])
  · rcases List.mem_append.mp hs with hs | hs
    · rcases List.mem_append.mp hs with hs | hs
      · exact h.ordered s (by simp [hs])
      · exact (hparts s hs).2
    · exact h.ordered s (by simp [hs])
  · rw [hnames]
    exact Nat.lt_of_le_of_lt (List.length_eraseIdx_le _ _) h.fits

/-! ## Removing one host -/

theorem setSlot_ofRanges (as bs : List HostRange) (r r' : HostRange) (free : Nat) (n : Int) :
    (Hostlist.ofRanges (as ++ r :: bs) free n).setSlot as.length (.live r') =
      Hostlist.ofRanges (as ++ r' :: bs) free n := by
  have hset : ((as ++ r :: bs).map Slot.live ++ List.replicate free Slot.null).set as.length
      (.live r') = (as ++ r' :: bs).map Slot.live ++ List.replicate free .null := by
    rw [List.map_append, List.append_assoc, List.set_append_right _ _ (by simp)]
    simp
  simp only [Hostlist.setSlot, Hostlist.ofRanges, hset]
  simp

theorem hostrangeEmpty_iff {r : HostRange} :
    hostrangeEmpty r = true ↔ r.hi < r.lo ∨ r.hi = ulongMax := by
  simp [hostrangeEmpty]

/-- Host `k` is the lowest of several hosts of a range that reaches up to the
largest `unsigned long`, which `hostrange_empty` takes for an empty range. -/
def HostRange.TopCut (r : HostRange) (k : Nat) : Prop :=
  r.singlehost = false ∧ k = r.lo ∧ r.lo < r.hi ∧ r.hi = ulongMax

instance (r : HostRange) (k : Nat) : Decidable (r.TopCut k) :=
  inferInstanceAs (Decidable (_ ∧ _))

theorem deleteFromRange_ofRanges (as bs : List HostRange) {r : HostRange} (hr : r.Ok)
    {k : Nat} (hk : r.singlehost = false → r.lo ≤ k ∧ k ≤ r.hi) (hcut : ¬ r.TopCut k)
    (free : Nat) (n : Int) :
    ∃ free', deleteFromRange (Hostlist.ofRanges (as ++ r :: bs) free n) as.length r k =
      Hostlist.ofRanges (as ++ r.without k ++ bs) free' n := by
  have hmax : ulongMax = 18446744073709551615 := rfl
  cases hs : r.singlehost with
  | true =>
    refine ⟨free + 1, ?_⟩
    rw [deleteFromRange, if_pos hs, HostRange.without, if_pos hs, List.append_nil]
    exact hostlistDeleteRange_ofRanges as bs r free n
  | false =>
    obtain ⟨hk1, hk2⟩ := hk hs
    have hhi := hr.hi_lt
    have hup : k < r.hi → ulong (k + 1) = k + 1 := fun h => by
      exact_mod_cast ulong_of_lt (n := k + 1) (by omega)
    have hno : ¬ r.singlehost = true := by simp [hs]
    rw [deleteFromRange, HostRange.without, if_neg hno, if_neg hno, hostrangeDeleteHost]
    by_cases h1 : k = r.lo
    · subst h1
      rw [if_pos rfl, if_neg (Nat.lt_irrefl _), List.nil_append]
      by_cases h2 : r.lo < r.hi
      · -- the range keeps its upper hosts
        have hne : r.hi ≠ ulongMax := fun h => hcut ⟨hs, rfl, h2, h⟩
        have hfull : ¬ hostrangeEmpty { r with lo := r.lo + 1 } = true := by
          rw [hostrangeEmpty_iff]
          simp only [not_or]
          exact ⟨by omega, hne⟩
        rw [if_pos h2]
        simp only [hup h2, if_neg hfull]
        refine ⟨free, ?_⟩
        rw [setSlot_ofRanges, List.append_assoc]
        rfl
      · -- it had one host
        have hempty : hostrangeEmpty { r with lo := ulong (r.lo + 1) } = true := by
          rw [hostrangeEmpty_iff]
          by_cases h3 : r.hi = ulongMax
          · exact .inr h3
          · left
            have hu : ulong (r.lo + 1) = r.lo + 1 := by
              exact_mod_cast ulong_of_lt (n := r.lo + 1) (by omega)
            show r.hi < ulong (r.lo + 1)
            omega
        rw [if_neg h2]
        simp only [if_pos hempty]
        refine ⟨free + 1, ?_⟩
        rw [setSlot_ofRanges, hostlistDeleteRange_ofRanges, List.append_nil]
    · rw [if_neg h1, if_pos (show r.lo < k by omega)]
      have hdown : ulong ((k : Int) - 1) = k - 1 := by
        have hcast : (k : Int) - 1 = ((k - 1 : Nat) : Int) := by omega
        rw [hcast]
        exact ulong_of_lt (by omega)
      by_cases h2 : k = r.hi
      · -- the highest host goes
        have hfull : ¬ hostrangeEmpty { r with hi := k - 1 } = true := by
          rw [hostrangeEmpty_iff]
          simp only [not_or]
          omega
        rw [if_pos h2, if_neg (show ¬ k < r.hi by omega), List.append_nil]
        rw [← h2]
        simp only [hdown, if_neg hfull]
        refine ⟨free, ?_⟩
        rw [setSlot_ofRanges, List.append_assoc]
        rfl
      · -- the range is split
        rw [if_neg h2, if_pos (show k < r.hi by omega)]
        simp only [hdown, hup (by omega), hostrangeCopy_eq hr.toWf]
        rw [setSlot_ofRanges]
        obtain ⟨free', hins⟩ := hostlistInsertRange_ofRanges (as ++ [{ r with hi := k - 1 }])
          bs free n { r with lo := k + 1 }
        refine ⟨free', ?_⟩
        have hok : HostRange.Ok { r with lo := k + 1 } :=
          .of_bounds hs (show k + 1 < _ by omega) hhi
        rw [hostrangeCopy_eq hok.toWf] at hins
        simpa using hins

/-- Host number `n` of the list is cut from the bottom of a range that reaches
up to the largest `unsigned long`. -/
def TopCutAt (rs : List HostRange) (n : Nat) : Prop :=
  ∃ as r bs, rs = as ++ r :: bs ∧ (names as).length = n ∧ r.TopCut r.lo

theorem HostRange.Wf.number_lt {r : HostRange} (h : r.Wf) {j : Nat}
    (hj : j < r.names.length) : r.lo + j < 18446744073709551616 := by
  have hlo := h.lo_lt
  have hhi := h.hi_lt
  rw [length_names] at hj
  split at hj
  · rename_i hs
    have h0 := (h.single hs).1
    omega
  · omega

theorem nthLoop_succ {hl : Hostlist} {n count : Int} {fuel i : Nat} {hr : HostRange}
    (h : hl.range i = some hr) :
    nthLoop hl n (fuel + 1) i count =
      if n ≤ int32 (hostrangeCount hr) - 1 + count then
        some (deleteFromRange hl i hr (ulong (hr.lo + n - count)))
      else nthLoop hl n fuel (i + 1) (int32 (count + int32 (hostrangeCount hr))) := by
  rw [nthLoop, h, Option.bind_eq_bind, Option.bind_some]

theorem nthLoop_ofRanges {rs : List HostRange} (h : Sound rs) (free : Nat) (m : Int)
    {n : Nat} (hn : n < (names rs).length) :
    ∀ (ss as : List HostRange), rs = as ++ ss → (names as).length ≤ n →
    ∃ as' r bs j, rs = as' ++ r :: bs ∧ j < r.names.length ∧ n = (names as').length + j ∧
      nthLoop (Hostlist.ofRanges rs free m) n ss.length as.length (names as).length =
        some (deleteFromRange (Hostlist.ofRanges rs free m) as'.length r (r.lo + j)) := by
  intro ss
  induction ss with
  | nil =>
    intro as has hle
    rw [List.append_nil] at has
    subst has
    omega
  | cons r bs ih =>
    intro as has hle
    subst has
    have hlen : r.names.length < 2147483648 :=
      Nat.lt_of_le_of_lt (length_names_le_of_mem (by simp)) h.fits
    have hcount : int32 (hostrangeCount r) = r.names.length := by
      rw [h.count_eq (by simp)]
      exact int32_of_range (by omega) (by omega)
    have hfits := h.fits
    simp only [names_append, names_cons, List.length_append] at hfits
    rw [List.length_cons, nthLoop_succ ofRanges_range, hcount]
    by_cases hhere : n < (names as).length + r.names.length
    · refine ⟨as, r, bs, n - (names as).length, rfl, by omega, by omega, ?_⟩
      have hwf := (h.ok r (by simp)).toWf
      have hbound := hwf.number_lt (j := n - (names as).length) (by omega)
      have harg : (r.lo : Int) + n - (names as).length =
          ((r.lo + (n - (names as).length) : Nat) : Int) := by
        push_cast
        omega
      rw [if_pos (by omega), harg, ulong_of_lt hbound]
    · rw [if_neg (by omega)]
      have hsum : int32 ((names as).length + r.names.length) =
          ((names (as ++ [r])).length : Nat) := by
        rw [int32_of_range (by omega) (by omega)]
        simp
      rw [hsum]
      have hidx : as.length + 1 = (as ++ [r]).length := by simp
      rw [hidx]
      exact ih (as ++ [r]) (by simp) (by simp; omega)

/-- `hostlist_delete_nth` takes one name out of the list. -/
theorem hostlistDeleteNth_ofRanges {rs : List HostRange} (h : Sound rs) (free n : Nat)
    (hn : n < (names rs).length) (hcut : ¬ TopCutAt rs n) :
    ∃ rs' free', hostlistDeleteNth (Hostlist.ofRanges rs free (names rs).length) n =
        some (Hostlist.ofRanges rs' free' (names rs').length) ∧
      Sound rs' ∧ names rs' = (names rs).eraseIdx n := by
  obtain ⟨as, r, bs, j, hrs, hj, hnj, hloop⟩ :=
    nthLoop_ofRanges h free (names rs).length hn rs [] rfl (Nat.zero_le _)
  subst hrs
  have hr : r.Ok := h.ok r (by simp)
  have hk : r.singlehost = false → r.lo ≤ r.lo + j ∧ r.lo + j ≤ r.hi := by
    intro hs
    rw [length_names, hs] at hj
    simp at hj
    omega
  have hno : ¬ r.TopCut (r.lo + j) := by
    rintro ⟨h1, h2, h3⟩
    obtain rfl : j = 0 := by omega
    exact hcut ⟨as, r, bs, rfl, by omega, h1, rfl, h3⟩
  obtain ⟨free', hdel⟩ := deleteFromRange_ofRanges as bs hr hk hno free
    (names (as ++ r :: bs)).length
  obtain ⟨hsound, hnames⟩ := h.without hj
  rw [← hnj] at hnames
  refine ⟨_, free', ?_, hsound, hnames⟩
  have hzero : (names ([] : List HostRange)).length = 0 := rfl
  rw [List.length_nil, hzero] at hloop
  have hfits := h.fits
  have hlen : int32 (((names (as ++ r :: bs)).length : Int) - 1) =
      (names (as ++ r.without (r.lo + j) ++ bs)).length := by
    rw [hnames, List.length_eraseIdx_of_lt hn, int32_of_range (by omega) (by omega)]
    omega
  rw [hostlistDeleteNth, ofRanges_nranges]
  rw [show ((0 : Nat) : Int) = 0 from rfl] at hloop
  rw [hloop, hdel, Option.map_some, ofRanges_nhosts, hlen]
  rfl

theorem ulong_pred {k : Nat} (h0 : 0 < k) (h : k < 18446744073709551616) :
    ulong ((k : Int) - 1) = k - 1 := by
  have hcast : (k : Int) - 1 = ((k - 1 : Nat) : Int) := by omega
  rw [hcast]
  exact ulong_of_lt (by omega)

theorem ulong_succ {k : Nat} (h : k + 1 < 18446744073709551616) :
    ulong ((k : Int) + 1) = k + 1 := by
  exact_mod_cast ulong_of_lt (n := k + 1) h

theorem number_last {r : HostRange} (ho : r.Ordered) (hw : r.Wf) :
    r.lo + (r.names.length - 1) = r.hi := by
  rw [length_names]
  cases hs : r.singlehost with
  | true =>
    obtain ⟨h1, h2, -⟩ := hw.single hs
    simp [h1, h2]
  | false =>
    have hle := ho hs
    simp
    omega

/-- `hostrange_pop` either empties the range or leaves it without its last
number. -/
theorem hostrangePop_spec {r : HostRange} (hr : r.Ok) (ho : r.Ordered)
    (hf : r.names.length < 2147483648) :
    (hostrangeEmpty (hostrangePop r).2 = true ∧ r.without r.hi = []) ∨
      (hostrangeEmpty (hostrangePop r).2 = false ∧ r.without r.hi = [(hostrangePop r).2]) := by
  have hmax : ulongMax = 18446744073709551615 := rfl
  cases hs : r.singlehost with
  | true =>
    obtain ⟨h1, h2, -⟩ := hr.single hs
    left
    rw [hostrangePop, if_pos hs, hostrangeEmpty_iff, HostRange.without, if_pos hs]
    refine ⟨.inl ?_, rfl⟩
    show r.hi < ulong (r.lo + 1)
    rw [ulong_succ (by omega)]
    omega
  | false =>
    have hno : ¬ r.singlehost = true := by simp [hs]
    have hle := ho hs
    have hhi := hr.hi_lt
    have hpos := names_length_pos ho
    rw [hostrangePop, if_neg hno, hostrangeCount_eq_length ho hf, if_pos hpos,
      HostRange.without, if_neg hno, if_neg (Nat.lt_irrefl _), List.append_nil]
    by_cases h : r.lo < r.hi
    · right
      rw [if_pos h]
      have hdown := ulong_pred (k := r.hi) (by omega) hhi
      simp only [hdown]
      refine ⟨?_, trivial⟩
      rw [← Bool.not_eq_true, hostrangeEmpty_iff]
      simp only [not_or]
      omega
    · left
      rw [if_neg h, hostrangeEmpty_iff]
      refine ⟨?_, rfl⟩
      show ulong ((r.hi : Int) - 1) < r.lo ∨ ulong ((r.hi : Int) - 1) = ulongMax
      by_cases h0 : r.hi = 0
      · right
        rw [h0]
        rfl
      · left
        rw [ulong_pred (by omega) hhi]
        omega

/-- `hostlist_pop` pops from the last range, and drops it when it is empty. -/
theorem hostlistPop_concat (as : List HostRange) (r : HostRange) (free : Nat) {n : Int}
    (hn : 0 < n) :
    hostlistPop (Hostlist.ofRanges (as ++ [r]) free n) =
      some ((hostrangePop r).1,
        if hostrangeEmpty (hostrangePop r).2 then Hostlist.ofRanges as (free + 1) (n - 1)
        else Hostlist.ofRanges (as ++ [(hostrangePop r).2]) free (n - 1)) := by
  have hidx : (as ++ [r]).length - 1 = as.length := by simp
  have hrange : (Hostlist.ofRanges (as ++ [r]) free n).range as.length = some r := ofRanges_range
  rw [hostlistPop, ofRanges_nhosts, if_pos hn, ofRanges_nranges, if_neg (by simp), hidx, hrange,
    Option.map_some]
  simp only [hidx]
  split
  · have hset : ((as ++ [r]).map Slot.live ++ List.replicate free Slot.null).set as.length
        .null = as.map Slot.live ++ List.replicate (free + 1) .null := by
      rw [List.map_append, List.append_assoc, List.set_append_right _ _ (by simp)]
      simp [List.replicate_succ]
    simp only [Hostlist.ofRanges, Hostlist.setSlot, hset]
    simp
    omega
  · have hset := setSlot_ofRanges as [] r (hostrangePop r).2 free (n - 1)
    rw [← hset]
    rfl

/-- `hostlist_pop` takes the last number out of the last range. -/
theorem hostlistPop_last (as : List HostRange) {r : HostRange} (hr : r.Ok) (ho : r.Ordered)
    (hf : r.names.length < 2147483648) (free : Nat) {n : Int} (hn : 0 < n) :
    ∃ free', hostlistPop (Hostlist.ofRanges (as ++ [r]) free n) =
      some ((hostrangePop r).1, Hostlist.ofRanges (as ++ r.without r.hi) free' (n - 1)) := by
  rw [hostlistPop_concat as r free hn]
  rcases hostrangePop_spec hr ho hf with ⟨he, hw⟩ | ⟨he, hw⟩
  · exact ⟨free + 1, by rw [if_pos he, hw, List.append_nil]⟩
  · exact ⟨free, by rw [if_neg (by simp [he]), hw]⟩

/-- A list without its last number. -/
theorem Sound.pop {as : List HostRange} {r : HostRange} (h : Sound (as ++ [r])) :
    Sound (as ++ r.without r.hi) ∧ names (as ++ r.without r.hi) = (names (as ++ [r])).dropLast := by
  have hr : r.Ok := h.ok r (by simp)
  have ho : r.Ordered := h.ordered r (by simp)
  have hpos := names_length_pos ho
  have htotal : (names (as ++ [r])).length = (names as).length + r.names.length := by
    simp
  obtain ⟨hsound, hnames⟩ := h.without (j := r.names.length - 1) (by omega)
  rw [number_last ho hr.toWf, List.append_nil] at hsound hnames
  have hlast : (names as).length + (r.names.length - 1) =
      (names (as ++ [r])).length - 1 := by omega
  rw [hlast, List.eraseIdx_length_sub_one] at hnames
  exact ⟨hsound, hnames⟩

/-- `hostlist_pop` takes the last name out of the list. -/
theorem hostlistPop_ofRanges {rs : List HostRange} (h : Sound rs) (free : Nat) :
    ∃ host rs' free', hostlistPop (Hostlist.ofRanges rs free (names rs).length) =
        some (host, Hostlist.ofRanges rs' free' (names rs').length) ∧
      Sound rs' ∧ names rs' = (names rs).dropLast := by
  rcases rs.eq_nil_or_concat' with rfl | ⟨as, r, rfl⟩
  · exact ⟨none, [], free, rfl, h, rfl⟩
  · have ho : r.Ordered := h.ordered r (by simp)
    have hf : r.names.length < 2147483648 :=
      Nat.lt_of_le_of_lt (length_names_le_of_mem (by simp)) h.fits
    have hpos := names_length_pos ho
    have htotal : (names (as ++ [r])).length = (names as).length + r.names.length := by
      simp
    obtain ⟨hsound, hnames⟩ := h.pop
    have hlen : ((names (as ++ [r])).length : Int) - 1 =
        (names (as ++ r.without r.hi)).length := by
      rw [hnames, List.length_dropLast]
      omega
    obtain ⟨free', hpop⟩ := hostlistPop_last as (h.ok r (by simp)) ho hf free
      (show (0 : Int) < (names (as ++ [r])).length by omega)
    rw [hlen] at hpop
    exact ⟨_, _, free', hpop, hsound, hnames⟩

/-- `hostrange_shift` either empties the range or leaves it without its first
number. -/
theorem hostrangeShift_spec {r : HostRange} (hr : r.Ok) (ho : r.Ordered)
    (hf : r.names.length < 2147483648) (hcut : ¬ r.TopCut r.lo) :
    (hostrangeEmpty (hostrangeShift r).2 = true ∧ r.without r.lo = []) ∨
      (hostrangeEmpty (hostrangeShift r).2 = false ∧
        r.without r.lo = [(hostrangeShift r).2]) := by
  have hmax : ulongMax = 18446744073709551615 := rfl
  cases hs : r.singlehost with
  | true =>
    obtain ⟨h1, h2, -⟩ := hr.single hs
    left
    rw [hostrangeShift, if_pos hs, hostrangeEmpty_iff, HostRange.without, if_pos hs]
    refine ⟨.inl ?_, rfl⟩
    show r.hi < ulong (r.lo + 1)
    rw [ulong_succ (by omega)]
    omega
  | false =>
    have hno : ¬ r.singlehost = true := by simp [hs]
    have hle := ho hs
    have hhi := hr.hi_lt
    have hpos := names_length_pos ho
    rw [hostrangeShift, if_neg hno, hostrangeCount_eq_length ho hf, if_pos hpos,
      HostRange.without, if_neg hno, if_neg (Nat.lt_irrefl _), List.nil_append]
    by_cases h : r.lo < r.hi
    · right
      have hne : r.hi ≠ ulongMax := fun he => hcut ⟨hs, rfl, h, he⟩
      rw [if_pos h]
      simp only [ulong_succ (k := r.lo) (by omega)]
      refine ⟨?_, trivial⟩
      rw [← Bool.not_eq_true, hostrangeEmpty_iff]
      simp only [not_or]
      exact ⟨by omega, hne⟩
    · left
      rw [if_neg h, hostrangeEmpty_iff]
      refine ⟨?_, rfl⟩
      show r.hi < ulong ((r.lo : Int) + 1) ∨ r.hi = ulongMax
      by_cases h1 : r.hi = ulongMax
      · exact .inr h1
      · left
        rw [ulong_succ (by omega)]
        omega

/-- A list without its first number. -/
theorem Sound.shift {r : HostRange} {bs : List HostRange} (h : Sound (r :: bs)) :
    Sound (r.without r.lo ++ bs) ∧ names (r.without r.lo ++ bs) = (names (r :: bs)).tail := by
  have hpos := names_length_pos (h.ordered r (by simp))
  obtain ⟨hsound, hnames⟩ := @Sound.without [] bs r h 0 (by omega)
  have hzero : (names ([] : List HostRange)).length + 0 = 0 := rfl
  rw [Nat.add_zero, List.nil_append] at hsound hnames
  rw [hzero, List.nil_append, List.eraseIdx_zero] at hnames
  exact ⟨hsound, hnames⟩

/-- `hostlist_shift` takes the first number out of the first range. -/
theorem hostlistShift_cons {r : HostRange} (bs : List HostRange) (hr : r.Ok) (ho : r.Ordered)
    (hf : r.names.length < 2147483648) (hcut : ¬ r.TopCut r.lo) (free : Nat) {n : Int}
    (hn : 0 < n) :
    ∃ free', hostlistShift (Hostlist.ofRanges (r :: bs) free n) =
      some ((hostrangeShift r).1, Hostlist.ofRanges (r.without r.lo ++ bs) free' (n - 1)) := by
  have hrange : (Hostlist.ofRanges (r :: bs) free n).range 0 = some r :=
    @ofRanges_range [] _ _ _ _
  rw [hostlistShift, ofRanges_nhosts, if_pos hn, hrange, Option.map_some]
  have hset := setSlot_ofRanges [] bs r (hostrangeShift r).2 free (n - 1)
  rcases hostrangeShift_spec hr ho hf hcut with ⟨he, hw⟩ | ⟨he, hw⟩
  · refine ⟨free + 1, ?_⟩
    have hdel := hostlistDeleteRange_ofRanges [] bs (hostrangeShift r).2 free (n - 1)
    rw [if_pos he, hw]
    simp only [List.nil_append, List.length_nil] at hset hdel ⊢
    rw [← hdel, ← hset]
    rfl
  · refine ⟨free, ?_⟩
    rw [if_neg (by simp [he]), hw]
    simp only [List.nil_append, List.singleton_append] at hset ⊢
    rw [← hset]
    rfl

/-- `hostlist_shift` takes the first name out of the list. -/
theorem hostlistShift_ofRanges {rs : List HostRange} (h : Sound rs) (free : Nat)
    (hcut : ¬ TopCutAt rs 0) :
    ∃ host rs' free', hostlistShift (Hostlist.ofRanges rs free (names rs).length) =
        some (host, Hostlist.ofRanges rs' free' (names rs').length) ∧
      Sound rs' ∧ names rs' = (names rs).tail := by
  cases rs with
  | nil => exact ⟨none, [], free, rfl, h, rfl⟩
  | cons r bs =>
    have ho : r.Ordered := h.ordered r (by simp)
    have hf : r.names.length < 2147483648 :=
      Nat.lt_of_le_of_lt (length_names_le_of_mem (by simp)) h.fits
    have hpos := names_length_pos ho
    obtain ⟨hsound, hnames⟩ := h.shift
    have hlen : ((names (r :: bs)).length : Int) - 1 =
        (names (r.without r.lo ++ bs)).length := by
      rw [hnames, List.length_tail, names_cons, List.length_append]
      omega
    have hn : 0 < ((names (r :: bs)).length : Int) := by
      rw [names_cons, List.length_append]
      omega
    obtain ⟨free', hshift⟩ := hostlistShift_cons bs (h.ok r (by simp)) ho hf
      (fun hc => hcut ⟨[], r, bs, rfl, rfl, hc⟩) free hn
    rw [hlen] at hshift
    exact ⟨_, _, free', hshift, hsound, hnames⟩

end Slurm.Hosts
