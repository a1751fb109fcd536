import SlurmLite.Hostlist.Uniq

/-!
# Splitting overlapping ranges

`hostlist_sort` hands the sorted ranges to `hostlist_coalesce`. Two neighbours
that overlap are cut at the ends of what they share, each host shared becomes a
range of its own, and the scan starts again from the last range.

* **Splits** (`splitRanges_perm`): the parts of two ranges have their hosts, each
  as often as before.
* **The array** (`returns_skip`, `returns_split`): one step of the scan as a step
  on a list of ranges. A range cut to nothing has its neighbour deleted and read
  once more (`not_returns_empty`), and hosts up to the largest number are counted
  forever (`not_returns_top`).
* **Neighbours in line** (`collapseLoop_ofRanges`): the second loop joins them.
-/

namespace Slurm.Hosts

open Base.Text Base.CLib Base.Sort

/-! ## The functions -/

/-- `hostrange_intersect`: the intersection and both ranges, whose widths it may
change. -/
def hostrangeIntersect (h1 h2 : HostRange) : Option HostRange × HostRange × HostRange :=
  if h1.singlehost || h2.singlehost then (none, h1, h2)
  else if hostrangePrefixCmp (some h1) (some h2) = 0 ∧ h1.hi > h2.lo then
    let c := hostrangeWidthCombine h1 h2
    if c.1 then
      (some { hostrangeCopy c.2.1 with
          lo := h2.lo
          hi := if h2.hi < h1.hi then h2.hi else h1.hi }, c.2)
    else (none, c.2)
  else (none, h1, h2)

/-- The loop of `hostlist_coalesce` over the hosts of `new`, from host `x` and
slot `j` on. The upper bound of `hprev` and the lower one of `hnext` are read in
each turn, and `hnext` may be freed. Behind the largest number the count starts
over, and the loop never ends. -/
def insertHosts (new : HostRange) (prevHi : Nat) (nextLo : Option Nat) :
    Nat → Nat → Nat → Hostlist → Option Hostlist
  | 0, _, _, _ => none
  | fuel + 1, x, j, hl =>
    if x ≤ new.hi then
      nextLo.bind fun lo =>
        let hr := hostrangeCreate new.pfx x x new.width
        let p := if x > prevHi then (hostlistInsertRange hl hr j, j + 1) else (hl, j)
        let q := if x < lo then (hostlistInsertRange p.1 hr p.2, p.2 + 1) else p
        insertHosts new prevHi nextLo fuel (ulong (x + 1)) q.2 q.1
    else some hl

/-- The first loop of `hostlist_coalesce`, at slot `i`. -/
def coalesceLoop : Nat → Nat → Hostlist → Option Hostlist
  | 0, _, _ => none
  | _ + 1, 0, hl => some hl
  | fuel + 1, i + 1, hl => do
    let h1 ← hl.range i
    let h2 ← hl.range (i + 1)
    let p := hostrangeIntersect h1 h2
    match p.1 with
    | none => coalesceLoop fuel i ((hl.setSlot i (.live p.2.1)).setSlot (i + 1) (.live p.2.2))
    | some new =>
      let hprev := { p.2.1 with hi := new.lo }
      let hnext := { p.2.2 with lo := new.hi, hi := if new.hi < h1.hi then h1.hi else h2.hi }
      let hl := (hl.setSlot i (.live hprev)).setSlot (i + 1) (.live hnext)
      let r :=
        if hostrangeEmpty hprev then (hostlistDeleteRange hl (i + 1), none)
        else (hl, some hnext.lo)
      let hl ← insertHosts new hprev.hi r.2 (new.hi - new.lo + 2) new.lo (i + 1) r.1
      coalesceLoop fuel (hl.nranges - 1) hl

/-- The loop of `hostlist_collapse`, at slot `i`. -/
def collapseLoop : Nat → Hostlist → Option Hostlist
  | 0, hl => some hl
  | i + 1, hl => do
    let hprev ← hl.range i
    let hnext ← hl.range (i + 1)
    if hostrangePrefixCmp (some hprev) (some hnext) = 0 ∧ hprev.hi = ulong (hnext.lo - 1) then
      let c := hostrangeWidthCombine hprev hnext
      let hl := hl.setSlot (i + 1) (.live c.2.2)
      if c.1 then
        collapseLoop i
          (hostlistDeleteRange (hl.setSlot i (.live { c.2.1 with hi := hnext.hi })) (i + 1))
      else collapseLoop i (hl.setSlot i (.live c.2.1))
    else collapseLoop i hl

/-- `hostlist_collapse`. -/
def hostlistCollapse (hl : Hostlist) : Option Hostlist := collapseLoop (hl.nranges - 1) hl

/-- `hostlist_coalesce`. -/
def hostlistCoalesce (fuel : Nat) (hl : Hostlist) : Option Hostlist :=
  (coalesceLoop fuel (hl.nranges - 1) hl).bind hostlistCollapse

/-- `hostlist_sort`. -/
def hostlistSort (qsort : List HostRange → List HostRange) (fuel : Nat) (hl : Hostlist) :
    Option Hostlist :=
  if hl.nranges ≤ 1 then some hl
  else (sortRanges qsort hl).bind (hostlistCoalesce fuel)

/-! ## Splits -/

/-- Two ranges that `hostlist_coalesce` splits. -/
def Crosses (a b : HostRange) : Prop :=
  a.singlehost = false ∧ SamePrefix a b ∧ b.lo < a.hi ∧ Compatible a b

instance (a b : HostRange) : Decidable (Crosses a b) :=
  inferInstanceAs (Decidable (_ ∧ _ ∧ _ ∧ _))

/-- The numbers two ranges share, from `x` to `m`, as `hostlist_coalesce` inserts
them: each twice, but the first and the last once. -/
def sharedNumbers (x m : Nat) : List Nat :=
  (List.range' x (m + 1 - x)).flatMap fun k =>
    (if k > x then [k] else []) ++ (if k < m then [k] else [])

/-- The parts of two ranges. -/
def splitRanges (a b : HostRange) : List HostRange :=
  let w := (hostrangeWidthCombine a b).2.1.width
  { a with width := w, hi := b.lo } ::
    ((sharedNumbers b.lo (min a.hi b.hi)).map (fun k => hostrangeCreate a.pfx k k w) ++
      [{ a with width := w, lo := min a.hi b.hi, hi := max a.hi b.hi }])

theorem range'_split (x k n : Nat) (h : k ≤ n) :
    List.range' x n = List.range' x k ++ List.range' (x + k) (n - k) := by
  rw [List.range'_append_1]
  congr 1
  omega

theorem filter_lt_range' (x m : Nat) :
    (List.range' x (m + 1 - x)).filter (fun k => k > x) = List.range' (x + 1) (m - x) := by
  by_cases h : x ≤ m
  · have hone : m + 1 - x = (m - x) + 1 := by omega
    rw [hone, List.range'_succ, List.filter_cons_of_neg (by simp), List.filter_eq_self]
    intro k hk
    have hle := (List.mem_range'_1.mp hk).1
    simp
    omega
  · have h1 : m + 1 - x = 0 := by omega
    have h2 : m - x = 0 := by omega
    rw [h1, h2]
    rfl

theorem filter_gt_range' (x m : Nat) :
    (List.range' x (m + 1 - x)).filter (fun k => k < m) = List.range' x (m - x) := by
  by_cases h : x ≤ m
  · have hone : m + 1 - x = (m - x) + 1 := by omega
    rw [hone, List.range'_1_concat, List.filter_append, List.filter_cons_of_neg (by simp; omega),
      List.filter_nil, List.append_nil, List.filter_eq_self]
    intro k hk
    have hlt := (List.mem_range'_1.mp hk).2
    simp
    omega
  · have h1 : m + 1 - x = 0 := by omega
    have h2 : m - x = 0 := by omega
    rw [h1, h2]
    rfl

theorem flatMap_ite_eq_filter (p : Nat → Prop) [DecidablePred p] (l : List Nat) :
    (l.flatMap fun k => if p k then [k] else []) = l.filter fun k => p k := by
  induction l with
  | nil => rfl
  | cons k l ih =>
    rw [List.flatMap_cons, ih, List.filter_cons]
    split <;> simp_all

/-- The shared numbers, once without the first and once without the last. -/
theorem sharedNumbers_perm (x m : Nat) :
    (sharedNumbers x m).Perm (List.range' (x + 1) (m - x) ++ List.range' x (m - x)) := by
  have h := List.flatMap_append_perm (List.range' x (m + 1 - x))
    (fun k => if k > x then [k] else []) fun k => if k < m then [k] else []
  rw [flatMap_ite_eq_filter fun k => k > x, flatMap_ite_eq_filter fun k => k < m,
    filter_lt_range', filter_gt_range'] at h
  exact h.symm

/-- Two overlapping intervals and their parts have the same numbers. -/
theorem split_numbers_perm {lo x h1 h2 : Nat} (hlo : lo ≤ x) (hx : x < h1) (hh : x ≤ h2) :
    (List.range' lo (x + 1 - lo) ++ sharedNumbers x (min h1 h2) ++
        List.range' (min h1 h2) (max h1 h2 + 1 - min h1 h2)).Perm
      (List.range' lo (h1 + 1 - lo) ++ List.range' x (h2 + 1 - x)) := by
  obtain ⟨m, hm⟩ : ∃ m, m = min h1 h2 := ⟨_, rfl⟩
  obtain ⟨M, hM⟩ : ∃ M, M = max h1 h2 := ⟨_, rfl⟩
  rw [← hm, ← hM]
  have hxm : x ≤ m := by omega
  have hmM : m ≤ M := by omega
  -- the lower parts make up an interval that ends at `m`, the upper ones that from `x` on
  have hlow : List.range' lo (x + 1 - lo) ++ List.range' (x + 1) (m - x) =
      List.range' lo (m + 1 - lo) := by
    have h := range'_split lo (x + 1 - lo) (m + 1 - lo) (by omega)
    have h3 : lo + (x + 1 - lo) = x + 1 := by omega
    have h4 : m + 1 - lo - (x + 1 - lo) = m - x := by omega
    rw [h3, h4] at h
    exact h.symm
  have hhigh : List.range' x (m - x) ++ List.range' m (M + 1 - m) =
      List.range' x (M + 1 - x) := by
    have h := range'_split x (m - x) (M + 1 - x) (by omega)
    have h3 : x + (m - x) = m := by omega
    have h4 : M + 1 - x - (m - x) = M + 1 - m := by omega
    rw [h3, h4] at h
    exact h.symm
  have hparts : (List.range' lo (x + 1 - lo) ++ sharedNumbers x m ++
      List.range' m (M + 1 - m)).Perm
      (List.range' lo (m + 1 - lo) ++ List.range' x (M + 1 - x)) := by
    rw [← hlow, ← hhigh]
    simp only [List.append_assoc]
    apply List.Perm.append_left
    rw [← List.append_assoc (List.range' (x + 1) (m - x))]
    exact (sharedNumbers_perm x m).append_right _
  refine hparts.trans ?_
  by_cases hin : h2 < h1
  · -- the second interval ends inside the first
    obtain rfl : h2 = m := by omega
    obtain rfl : h1 = M := by omega
    have h3 := range'_split lo (h2 + 1 - lo) (h1 + 1 - lo) (by omega)
    have h4 := range'_split x (h2 + 1 - x) (h1 + 1 - x) (by omega)
    have e1 : lo + (h2 + 1 - lo) = h2 + 1 := by omega
    have e2 : h1 + 1 - lo - (h2 + 1 - lo) = h1 - h2 := by omega
    have e3 : x + (h2 + 1 - x) = h2 + 1 := by omega
    have e4 : h1 + 1 - x - (h2 + 1 - x) = h1 - h2 := by omega
    rw [e1, e2] at h3
    rw [e3, e4] at h4
    rw [h3, h4, List.append_assoc]
    apply List.Perm.append_left
    exact List.perm_append_comm
  · obtain rfl : h1 = m := by omega
    obtain rfl : h2 = M := by omega
    exact .refl _

/-- The names of ranges with numbers of one prefix and width. -/
theorem names_eq_map {p : List Char} {w : Nat} {rs : List HostRange}
    (h : ∀ r ∈ rs, r.singlehost = false ∧ r.pfx = p ∧ r.width = w) :
    names rs = (rs.flatMap HostRange.numbers).map fun k => p ++ padded w k := by
  induction rs with
  | nil => rfl
  | cons r rs ih =>
    obtain ⟨hs, hp, hw⟩ := h r (by simp)
    rw [names_cons, ih fun s hs => h s (by simp [hs]), List.flatMap_cons, List.map_append,
      HostRange.names, hs, if_neg (by simp)]
    congr 1
    refine List.map_congr_left fun k _ => ?_
    rw [HostRange.nameAt, hp, hw]

/-- What the parts of two ranges have in common. -/
theorem mem_splitRanges {a b p : HostRange} (hs : a.singlehost = false)
    (h : p ∈ splitRanges a b) :
    p.singlehost = false ∧ p.pfx = a.pfx ∧ p.width = (hostrangeWidthCombine a b).2.1.width := by
  unfold splitRanges at h
  simp only [List.mem_cons, List.mem_append, List.mem_map, List.not_mem_nil, or_false] at h
  rcases h with rfl | ⟨k, -, rfl⟩ | rfl
  · exact ⟨hs, rfl, rfl⟩
  · exact ⟨rfl, rfl, rfl⟩
  · exact ⟨hs, rfl, rfl⟩

theorem flatMap_numbers_splitRanges (a b : HostRange) :
    (splitRanges a b).flatMap HostRange.numbers =
      List.range' a.lo (b.lo + 1 - a.lo) ++ sharedNumbers b.lo (min a.hi b.hi) ++
        List.range' (min a.hi b.hi) (max a.hi b.hi + 1 - min a.hi b.hi) := by
  have hones : ∀ (w : Nat) (ks : List Nat),
      (ks.map fun k => hostrangeCreate a.pfx k k w).flatMap HostRange.numbers = ks := by
    intro w ks
    induction ks with
    | nil => rfl
    | cons k ks ih =>
      rw [List.map_cons, List.flatMap_cons, ih]
      simp [HostRange.numbers, hostrangeCreate]
  unfold splitRanges
  rw [List.flatMap_cons, List.flatMap_append, hones, List.append_assoc]
  simp [HostRange.numbers]

/-- The parts of two ranges have their numbers, each as often as before. -/
theorem splitRanges_numbers {a b : HostRange} (hlo : a.lo ≤ b.lo) (hx : b.lo < a.hi)
    (hb : b.lo ≤ b.hi) :
    ((splitRanges a b).flatMap HostRange.numbers).Perm (a.numbers ++ b.numbers) := by
  rw [flatMap_numbers_splitRanges]
  exact split_numbers_perm hlo hx hb

/-- The parts of two ranges have their names, each as often as before. -/
theorem splitRanges_perm {a b : HostRange} (hc : Crosses a b) (hlo : a.lo ≤ b.lo)
    (hb : b.lo ≤ b.hi) : (names (splitRanges a b)).Perm (a.names ++ b.names) := by
  obtain ⟨hs, hsame, hx, hcompat⟩ := hc
  obtain ⟨-, h1, h2, hw⟩ := hostrangeWidthCombine_spec a b
  have hpair : a.names ++ b.names =
      (a.numbers ++ b.numbers).map fun k =>
        a.pfx ++ padded (hostrangeWidthCombine a b).2.1.width k := by
    have hboth := @names_eq_map a.pfx (hostrangeWidthCombine a b).2.1.width
      [(hostrangeWidthCombine a b).2.1, (hostrangeWidthCombine a b).2.2] ?_
    · have hn1 : (hostrangeWidthCombine a b).2.1.numbers = a.numbers := by
        rw [HostRange.numbers, h1.lo, h1.hi, HostRange.numbers]
      have hn2 : (hostrangeWidthCombine a b).2.2.numbers = b.numbers := by
        rw [HostRange.numbers, h2.lo, h2.hi, HostRange.numbers]
      simp only [names_cons, names_nil, List.append_nil, List.flatMap_cons, List.flatMap_nil,
        h1.names, h2.names, hn1, hn2] at hboth
      exact hboth
    · intro r hr
      simp only [List.mem_cons, List.not_mem_nil, or_false] at hr
      rcases hr with rfl | rfl
      · exact ⟨h1.singlehost.trans hs, h1.pfx, rfl⟩
      · exact ⟨h2.singlehost.trans (hsame.2 ▸ hs), h2.pfx.trans hsame.1.symm, (hw hcompat).symm⟩
  rw [names_eq_map fun p hp => mem_splitRanges hs hp, hpair]
  exact (splitRanges_numbers hlo hx hb).map _

theorem hostrangeIntersect_of_crosses {a b : HostRange} (h : Crosses a b) :
    hostrangeIntersect a b =
      (some { hostrangeCreate a.pfx b.lo (min a.hi b.hi)
          (hostrangeWidthCombine a b).2.1.width with singlehost := false },
        (hostrangeWidthCombine a b).2) := by
  obtain ⟨hs, hsame, hx, hcompat⟩ := h
  have hsb : b.singlehost = false := hsame.2 ▸ hs
  obtain ⟨hone, h1, -, -⟩ := hostrangeWidthCombine_spec a b
  have hmin : (if b.hi < a.hi then b.hi else a.hi) = min a.hi b.hi := by
    split <;> omega
  have hcopy : hostrangeCopy (hostrangeWidthCombine a b).2.1 =
      hostrangeCreate a.pfx a.lo a.hi (hostrangeWidthCombine a b).2.1.width := by
    rw [hostrangeCopy, h1.singlehost, hs, if_neg (by simp), h1.pfx, h1.lo, h1.hi]
  unfold hostrangeIntersect
  rw [hs, hsb, if_neg (by simp), if_pos ⟨hostrangePrefixCmp_eq_zero_iff.mpr hsame, hx⟩]
  simp only []
  rw [hone, if_pos (decide_eq_true hcompat), hcopy, hmin]
  rfl

theorem hostrangeIntersect_of_not {a b : HostRange} (h : ¬ Crosses a b) :
    hostrangeIntersect a b = (none, a, b) := by
  unfold hostrangeIntersect
  split
  · rfl
  next hs =>
    split
    next hp =>
      have hsa : a.singlehost = false := by
        cases hsa : a.singlehost with
        | true => exact absurd (by simp [hsa]) hs
        | false => rfl
      have hno : ¬ Compatible a b := fun hc =>
        h ⟨hsa, hostrangePrefixCmp_eq_zero_iff.mp hp.1, hp.2, hc⟩
      rw [hostrangeWidthCombine_of_not hno]
      rfl
    next => rfl

/-! ## The array -/

section

variable {free : Nat} {n : Int}

/-- A range that is inserted or not, and the slot behind it. -/
theorem insert_ite (c : Prop) [Decidable c] {r : HostRange} (hr : hostrangeCopy r = r)
    (as bs : List HostRange) :
    ∃ free', (if c then
        (hostlistInsertRange (Hostlist.ofRanges (as ++ bs) free n) r as.length, as.length + 1)
      else (Hostlist.ofRanges (as ++ bs) free n, as.length)) =
      (Hostlist.ofRanges ((as ++ if c then [r] else []) ++ bs) free' n,
        (as ++ if c then [r] else []).length) := by
  by_cases h : c
  · obtain ⟨free', hins⟩ := hostlistInsertRange_ofRanges as bs free n r
    refine ⟨free', ?_⟩
    rw [if_pos h, if_pos h, hins, hr]
    simp
  · refine ⟨free, ?_⟩
    rw [if_neg h, if_neg h, List.append_nil]

/-- The hosts of an intersection are inserted one after the other. -/
theorem insertHosts_ofRanges {new : HostRange} {prevHi lo : Nat} (hi : new.hi < ulongMax) :
    ∀ (k x free : Nat) (as bs : List HostRange), x + k = new.hi + 1 →
    ∃ free', insertHosts new prevHi (some lo) (k + 1) x as.length
      (Hostlist.ofRanges (as ++ bs) free n) =
      some (Hostlist.ofRanges (as ++ (((List.range' x k).flatMap fun y =>
        (if y > prevHi then [y] else []) ++ (if y < lo then [y] else [])).map fun y =>
          hostrangeCreate new.pfx y y new.width) ++ bs) free' n) := by
  have hmax : ulongMax = 18446744073709551615 := rfl
  intro k
  induction k with
  | zero =>
    intro x free as bs hx
    refine ⟨free, ?_⟩
    rw [insertHosts, if_neg (by omega)]
    simp
  | succ k ih =>
    intro x free as bs hx
    have hup : ulong ((x : Int) + 1) = x + 1 := ulong_succ (by omega)
    obtain ⟨r, hr⟩ : ∃ r, r = hostrangeCreate new.pfx x x new.width := ⟨_, rfl⟩
    have hcopy : hostrangeCopy r = r := by rw [hr]; rfl
    have hmap : ∀ (c : Prop) [Decidable c],
        (if c then [x] else []).map (fun y => hostrangeCreate new.pfx y y new.width) =
          if c then [r] else [] := by
      intro c _
      split
      · rw [hr]
        rfl
      · rfl
    rw [insertHosts, if_pos (by omega), Option.bind_some, hup, List.range'_succ,
      List.flatMap_cons, List.map_append, List.map_append, hmap, hmap, ← hr]
    -- at most two ranges go in before the next turn
    obtain ⟨f1, e1⟩ := @insert_ite free n (x > prevHi) _ r hcopy as bs
    simp only [e1]
    obtain ⟨f2, e2⟩ := @insert_ite f1 n (x < lo) _ r hcopy
      (as ++ if x > prevHi then [r] else []) bs
    rw [e2]
    obtain ⟨f3, e3⟩ := ih (x + 1) f2
      ((as ++ if x > prevHi then [r] else []) ++ if x < lo then [r] else []) bs (by omega)
    refine ⟨f3, ?_⟩
    rw [e3]
    simp only [List.append_assoc]

/-- The hosts up to the largest number are counted forever. -/
theorem insertHosts_top {new : HostRange} {prevHi : Nat} {nextLo : Option Nat}
    (hi : new.hi = ulongMax) : ∀ (fuel x j : Nat) (hl : Hostlist), x ≤ ulongMax →
    insertHosts new prevHi nextLo fuel x j hl = none := by
  intro fuel
  induction fuel with
  | zero => exact fun _ _ _ _ => rfl
  | succ fuel ih =>
    intro x j hl hx
    rw [insertHosts, if_pos (by omega)]
    cases nextLo with
    | none => rfl
    | some lo =>
      apply ih
      have hlt := ulong_lt ((x : Int) + 1)
      have hmax : ulongMax = 18446744073709551615 := rfl
      omega

end

/-- The first loop of `hostlist_coalesce` ends from slot `i` on in the list `out`. -/
def Returns (i : Nat) (hl out : Hostlist) : Prop := ∃ fuel, coalesceLoop fuel i hl = some out

theorem returns_zero {hl out : Hostlist} : Returns 0 hl out ↔ hl = out := by
  constructor
  · rintro ⟨fuel, h⟩
    cases fuel with
    | zero => cases h
    | succ fuel => exact Option.some.inj h
  · rintro rfl
    exact ⟨1, rfl⟩

/-- A step of the scan that ends in another state. -/
theorem returns_of_step {i j : Nat} {hl hl' out : Hostlist}
    (h : ∀ fuel, coalesceLoop (fuel + 1) i hl = coalesceLoop fuel j hl') :
    Returns i hl out ↔ Returns j hl' out := by
  constructor
  · rintro ⟨fuel, hf⟩
    cases fuel with
    | zero => cases hf
    | succ fuel => exact ⟨fuel, (h fuel).symm.trans hf⟩
  · rintro ⟨fuel, hf⟩
    exact ⟨fuel + 1, (h fuel).trans hf⟩

theorem not_returns_of_step {i : Nat} {hl out : Hostlist}
    (h : ∀ fuel, coalesceLoop (fuel + 1) i hl = none) : ¬ Returns i hl out := by
  rintro ⟨fuel, hf⟩
  cases fuel with
  | zero => cases hf
  | succ fuel =>
    rw [h] at hf
    cases hf

section

variable {as bs : List HostRange} {a b : HostRange} {free : Nat} {n : Int}

/-- The two ranges a step of the scan reads. -/
theorem ofRanges_pair :
    (Hostlist.ofRanges (as ++ a :: b :: bs) free n).range as.length = some a ∧
      (Hostlist.ofRanges (as ++ a :: b :: bs) free n).range (as.length + 1) = some b := by
  have hsplit : as ++ a :: b :: bs = (as ++ [a]) ++ b :: bs := by simp
  have hlen : as.length + 1 = (as ++ [a]).length := by simp
  refine ⟨ofRanges_range, ?_⟩
  rw [hsplit, hlen]
  exact ofRanges_range

theorem setSlot_pair (a' b' : HostRange) :
    ((Hostlist.ofRanges (as ++ a :: b :: bs) free n).setSlot as.length (.live a')).setSlot
        (as.length + 1) (.live b') =
      Hostlist.ofRanges (as ++ a' :: b' :: bs) free n := by
  have hsplit : ∀ x y : HostRange, as ++ x :: y :: bs = (as ++ [x]) ++ y :: bs := by simp
  have hlen : as.length + 1 = (as ++ [a']).length := by simp
  rw [setSlot_ofRanges, hsplit a' b, hlen, setSlot_ofRanges, ← hsplit]

theorem delete_pair :
    hostlistDeleteRange (Hostlist.ofRanges (as ++ a :: b :: bs) free n) (as.length + 1) =
      Hostlist.ofRanges (as ++ a :: bs) (free + 1) n := by
  have hsplit : as ++ a :: b :: bs = (as ++ [a]) ++ b :: bs := by simp
  have hlen : as.length + 1 = (as ++ [a]).length := by simp
  rw [hsplit, hlen, hostlistDeleteRange_ofRanges, List.append_assoc]
  rfl

/-- Neighbours that do not cross are left as they are. -/
theorem returns_skip {out : Hostlist} (h : ¬ Crosses a b) :
    Returns (as.length + 1) (Hostlist.ofRanges (as ++ a :: b :: bs) free n) out ↔
      Returns as.length (Hostlist.ofRanges (as ++ a :: b :: bs) free n) out := by
  apply returns_of_step
  intro fuel
  obtain ⟨h1, h2⟩ := @ofRanges_pair as bs a b free n
  rw [coalesceLoop, h1, h2, Option.bind_eq_bind, Option.bind_some, Option.bind_eq_bind,
    Option.bind_some, hostrangeIntersect_of_not h]
  simp only []
  rw [setSlot_pair]

/-- A step at neighbours that cross, up to the loop over the shared hosts. -/
theorem coalesceLoop_crosses (h : Crosses a b) (fuel : Nat) :
    coalesceLoop (fuel + 1) (as.length + 1) (Hostlist.ofRanges (as ++ a :: b :: bs) free n) =
      (insertHosts (hostrangeCreate a.pfx b.lo (min a.hi b.hi)
          (hostrangeWidthCombine a b).2.1.width) b.lo
        (if b.lo < a.lo ∨ b.lo = ulongMax then none else some (min a.hi b.hi))
        (min a.hi b.hi - b.lo + 2) b.lo (as.length + 1)
        (if b.lo < a.lo ∨ b.lo = ulongMax then Hostlist.ofRanges (as ++
            { (hostrangeWidthCombine a b).2.1 with hi := b.lo } :: bs) (free + 1) n
          else Hostlist.ofRanges (as ++ { (hostrangeWidthCombine a b).2.1 with hi := b.lo } ::
            { (hostrangeWidthCombine a b).2.2 with lo := min a.hi b.hi, hi := max a.hi b.hi } ::
              bs) free n)).bind fun hl => coalesceLoop fuel (hl.nranges - 1) hl := by
  obtain ⟨h1, h2⟩ := @ofRanges_pair as bs a b free n
  have hmax : (if min a.hi b.hi < a.hi then a.hi else b.hi) = max a.hi b.hi := by
    split <;> omega
  have hlo : (hostrangeWidthCombine a b).2.1.lo = a.lo :=
    (hostrangeWidthCombine_spec a b).2.1.lo
  have hempty : hostrangeEmpty { (hostrangeWidthCombine a b).2.1 with hi := b.lo } = true ↔
      b.lo < a.lo ∨ b.lo = ulongMax := by
    rw [hostrangeEmpty_iff, ← hlo]
  rw [coalesceLoop, h1, h2, Option.bind_eq_bind, Option.bind_some, Option.bind_eq_bind,
    Option.bind_some, hostrangeIntersect_of_crosses h]
  simp only [hostrangeCreate, setSlot_pair, delete_pair, hempty]
  by_cases hbad : b.lo < a.lo ∨ b.lo = ulongMax
  · simp only [if_pos hbad]
  · simp only [if_neg hbad]
    rw [← hmax]
    rfl

/-- Neighbours in order that cross are replaced by their parts. -/
theorem returns_split (hc : Crosses a b) (hlo : a.lo ≤ b.lo) (hb : b.lo ≤ b.hi)
    (ha : a.hi ≤ ulongMax) (htop : min a.hi b.hi ≠ ulongMax) :
    ∃ free', ∀ out,
      Returns (as.length + 1) (Hostlist.ofRanges (as ++ a :: b :: bs) free n) out ↔
        Returns ((as ++ splitRanges a b ++ bs).length - 1)
          (Hostlist.ofRanges (as ++ splitRanges a b ++ bs) free' n) out := by
  obtain ⟨hs, hsame, hx, hcompat⟩ := id hc
  obtain ⟨-, r1, r2, hw⟩ := hostrangeWidthCombine_spec a b
  obtain ⟨w, hwdef⟩ : ∃ w, w = (hostrangeWidthCombine a b).2.1.width := ⟨_, rfl⟩
  have hlow : { (hostrangeWidthCombine a b).2.1 with hi := b.lo } =
      ({ a with width := w, hi := b.lo } : HostRange) := by
    obtain ⟨w', hr, -⟩ := r1
    rw [hwdef, hr]
  have hhigh : { (hostrangeWidthCombine a b).2.2 with
        lo := min a.hi b.hi, hi := max a.hi b.hi } =
      ({ a with width := w, lo := min a.hi b.hi, hi := max a.hi b.hi } : HostRange) := by
    have hwidth := hw hcompat
    obtain ⟨w', hr, -⟩ := r2
    rw [hwdef, hwidth, hr, hsame.1, hsame.2]
  have hgood : ¬ (b.lo < a.lo ∨ b.lo = ulongMax) := by omega
  have hlen : as.length + 1 = (as ++ [({ a with width := w, hi := b.lo } : HostRange)]).length := by
    simp
  have hfuel : min a.hi b.hi - b.lo + 2 = min a.hi b.hi + 1 - b.lo + 1 := by omega
  have hlist : as ++ ({ a with width := w, hi := b.lo } : HostRange) ::
        ({ a with width := w, lo := min a.hi b.hi, hi := max a.hi b.hi } : HostRange) :: bs =
      (as ++ [({ a with width := w, hi := b.lo } : HostRange)]) ++
        ({ a with width := w, lo := min a.hi b.hi, hi := max a.hi b.hi } : HostRange) :: bs := by
    simp
  obtain ⟨free', hins⟩ := @insertHosts_ofRanges n (hostrangeCreate a.pfx b.lo (min a.hi b.hi) w)
    b.lo (min a.hi b.hi) (show min a.hi b.hi < ulongMax by omega) (min a.hi b.hi + 1 - b.lo) b.lo
    free (as ++ [({ a with width := w, hi := b.lo } : HostRange)])
    (({ a with width := w, lo := min a.hi b.hi, hi := max a.hi b.hi } : HostRange) :: bs)
    (show b.lo + (min a.hi b.hi + 1 - b.lo) = min a.hi b.hi + 1 by omega)
  refine ⟨free', fun out => returns_of_step fun fuel => ?_⟩
  rw [coalesceLoop_crosses hc, if_neg hgood, if_neg hgood, ← hwdef, hlow, hhigh, hfuel, hlist, hlen,
    hins, Option.bind_some, ofRanges_nranges]
  have hparts : as ++ [({ a with width := w, hi := b.lo } : HostRange)] ++
      (((List.range' b.lo (min a.hi b.hi + 1 - b.lo)).flatMap fun y =>
        (if y > b.lo then [y] else []) ++ (if y < min a.hi b.hi then [y] else [])).map fun y =>
          hostrangeCreate a.pfx y y w) ++
        ({ a with width := w, lo := min a.hi b.hi, hi := max a.hi b.hi } : HostRange) :: bs =
      as ++ splitRanges a b ++ bs := by
    unfold splitRanges sharedNumbers
    simp only [← hwdef, List.append_assoc, List.cons_append, List.nil_append]
  have hcreate : (hostrangeCreate a.pfx b.lo (min a.hi b.hi) w).pfx = a.pfx := rfl
  have hcreate' : (hostrangeCreate a.pfx b.lo (min a.hi b.hi) w).width = w := rfl
  rw [hcreate, hcreate', ← hparts]

/-- Neighbours that share the largest number are never done with. -/
theorem not_returns_top {out : Hostlist} (hc : Crosses a b) (ha : a.hi ≤ ulongMax)
    (htop : min a.hi b.hi = ulongMax) :
    ¬ Returns (as.length + 1) (Hostlist.ofRanges (as ++ a :: b :: bs) free n) out := by
  obtain ⟨-, -, hx, -⟩ := id hc
  apply not_returns_of_step
  intro fuel
  rw [coalesceLoop_crosses hc, insertHosts_top]
  · rfl
  · exact htop
  · omega

/-- Of neighbours out of order the second is freed, and read. -/
theorem not_returns_empty {out : Hostlist} (hc : Crosses a b) (hlo : b.lo < a.lo)
    (hb : b.lo ≤ b.hi) :
    ¬ Returns (as.length + 1) (Hostlist.ofRanges (as ++ a :: b :: bs) free n) out := by
  obtain ⟨-, -, hx, -⟩ := id hc
  apply not_returns_of_step
  intro fuel
  rw [coalesceLoop_crosses hc, if_pos (.inl hlo), insertHosts, if_pos]
  · rfl
  · show b.lo ≤ min a.hi b.hi
    omega

end

/-! ## Neighbours in line -/

/-- A range in front of ranges that were joined already. -/
def joinBefore (r : HostRange) : List HostRange → List HostRange
  | [] => [r]
  | s :: ss => if Joins r s then joined r s :: ss else r :: s :: ss

/-- The ranges `hostlist_collapse` leaves of a list. -/
def collapseRanges (rs : List HostRange) : List HostRange := rs.foldr joinBefore []

/-- The second loop joins from the last range on. -/
theorem collapseLoop_ofRanges {n : Int} : ∀ (as : List HostRange) (s : HostRange)
    (ss : List HostRange) (free : Nat),
    ∃ free', collapseLoop as.length (Hostlist.ofRanges (as ++ s :: ss) free n) =
      some (Hostlist.ofRanges (as.foldr joinBefore (s :: ss)) free' n) := by
  intro as
  induction as using List.reverseRecOn with
  | nil => exact fun s ss free => ⟨free, rfl⟩
  | append_singleton as r ih =>
    intro s ss free
    have hlist : as ++ [r] ++ s :: ss = as ++ r :: s :: ss := by simp
    obtain ⟨h1, h2⟩ := @ofRanges_pair as ss r s free n
    rw [List.length_append, List.length_singleton, hlist, collapseLoop, h1, h2,
      Option.bind_eq_bind, Option.bind_some, Option.bind_some,
      List.foldr_append, List.foldr_cons, List.foldr_nil, joinBefore]
    by_cases hp : SamePrefix r s ∧ r.hi = ulong ((s.lo : Int) - 1)
    · rw [if_pos ⟨hostrangePrefixCmp_eq_zero_iff.mpr hp.1, hp.2⟩]
      simp only []
      rw [(hostrangeWidthCombine_spec r s).1]
      by_cases hc : Compatible r s
      · have hj : Joins r s := ⟨hp.1, hp.2, hc⟩
        have hswap : ∀ hl : Hostlist, ∀ a b : HostRange,
            (hl.setSlot (as.length + 1) (.live b)).setSlot as.length (.live a) =
              (hl.setSlot as.length (.live a)).setSlot (as.length + 1) (.live b) := by
          intro hl a b
          simp only [Hostlist.setSlot]
          congr 1
          exact List.set_comm _ _ (by omega)
        rw [if_pos (decide_eq_true hc), if_pos hj, hswap, setSlot_pair, delete_pair]
        exact ih (joined r s) ss (free + 1)
      · have hno : ¬ Joins r s := fun hj => hc hj.2.2
        have hself : ((Hostlist.ofRanges (as ++ r :: s :: ss) free n).setSlot (as.length + 1)
            (.live s)).setSlot as.length (.live r) =
            Hostlist.ofRanges (as ++ r :: s :: ss) free n := by
          have hsplit : as ++ r :: s :: ss = (as ++ [r]) ++ s :: ss := by simp
          have hlen : as.length + 1 = (as ++ [r]).length := by simp
          rw [hsplit, hlen, setSlot_ofRanges, ← hsplit, setSlot_ofRanges]
        rw [if_neg (by simp [hc]), if_neg hno, hostrangeWidthCombine_of_not hc]
        simp only []
        rw [hself]
        exact ih r (s :: ss) free
    · have hno : ¬ Joins r s := fun hj => hp ⟨hj.1, hj.2.1⟩
      rw [if_neg fun h => hp ⟨hostrangePrefixCmp_eq_zero_iff.mp h.1, h.2⟩, if_neg hno]
      exact ih r (s :: ss) free

theorem hostlistCollapse_ofRanges (rs : List HostRange) (free : Nat) (n : Int) :
    ∃ free', hostlistCollapse (Hostlist.ofRanges rs free n) =
      some (Hostlist.ofRanges (collapseRanges rs) free' n) := by
  rw [hostlistCollapse, ofRanges_nranges]
  rcases rs.eq_nil_or_concat' with rfl | ⟨as, s, rfl⟩
  · exact ⟨free, rfl⟩
  · obtain ⟨free', h⟩ := @collapseLoop_ofRanges n as s [] free
    rw [List.length_append, List.length_singleton, Nat.add_sub_cancel]
    refine ⟨free', h.trans ?_⟩
    rw [collapseRanges, List.foldr_append]
    rfl

end Slurm.Hosts
