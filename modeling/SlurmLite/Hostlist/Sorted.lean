import SlurmLite.Hostlist.Groups
import SlurmLite.Hostlist.Settle

/-!
# Sorting a list

`hostlist_sort` sorts the ranges, splits those that overlap and joins neighbours
in line. With `qsort` a parameter, as in `hostlist_uniq`, it returns a sorted list of
the same names exactly on tame ranges (`hostlistSort_iff`), where no range was
wrapped and the comparison is an order.

* **Joining** (`Lined.collapse`): the second loop keeps the ranges in line, their
  names and the numbers of each block, and leaves no neighbours to join.
* **The comparison** (`Lined.near`): in the list left, too, the numbers of
  neighbours differ by less than an `int` holds, since there is no gap in a block
  that no range had.
-/

namespace Slurm.Hosts

open Base.Text Base.CLib Base.Sort

/-! ## Joining -/

section

variable {ps as ss : List HostRange} {r s t : HostRange}

theorem joined_key (r s : HostRange) : SameKey r (joined r s) := by
  have hkey := (hostrangeWidthCombine_spec r s).2.1.sameKey
  refine ⟨hkey.samePrefix, hkey.lo, ?_⟩
  have hlevel := hkey.level
  unfold HostRange.level at hlevel ⊢
  exact hlevel

/-- Sorted neighbours that join are in line. -/
theorem Lined.succ_of_joins (h : Lined ps (as ++ r :: s :: ss)) (hj : Joins r s) :
    r.singlehost = false ∧ r.hi + 1 = s.lo := by
  have hr := h.pushed r (by simp)
  have hs := h.pushed s (by simp)
  have hsingle : s.singlehost = false := hj.not_single hr.toWf hs.toWf
  have hrs : r.singlehost = false := hj.1.2.trans hsingle
  have hline : r.hi ≤ s.lo := by
    have htail := (List.pairwise_append.mp h.inLine).2.1
    exact (List.pairwise_cons.mp htail).1 s (by simp) hrs (h.sameBlock hj.1 hj.2.2)
  have hlt := hs.lo_lt
  have hcut := hj.2.1
  unfold ulong at hcut
  exact ⟨hrs, by omega⟩

/-- A relation that holds before the first and after both of two neighbours holds
of what they are joined to. -/
theorem pairwise_join {R : HostRange → HostRange → Prop} {j : HostRange}
    (hbefore : ∀ x, R x r → R x j) (hafter : ∀ y, R r y → R s y → R j y)
    (h : (as ++ r :: s :: ss).Pairwise R) : (as ++ j :: ss).Pairwise R := by
  obtain ⟨has, htail, hcross⟩ := List.pairwise_append.mp h
  obtain ⟨hr, hrest⟩ := List.pairwise_cons.mp htail
  obtain ⟨hs, hss⟩ := List.pairwise_cons.mp hrest
  refine List.pairwise_append.mpr ⟨has, List.pairwise_cons.mpr ⟨fun y hy => ?_, hss⟩,
    fun x hx y hy => ?_⟩
  · exact hafter y (hr y (by simp [hy])) (hs y hy)
  · rcases List.mem_cons.mp hy with rfl | hy
    · exact hbefore x (hcross x hx r (by simp))
    · exact hcross x hx y (by simp [hy])

/-- Joining keeps the levels of the padded ranges. -/
theorem SameLevels.join (h : State ps (as ++ r :: s :: ss)) (hs : SamePrefix r s)
    (hc : Compatible r s) : SameLevels ps (as ++ joined r s :: ss) := by
  have hkey := joined_key r s
  have hmem : joined r s ∈ as ++ joined r s :: ss := by simp
  have htail := (List.pairwise_append.mp h.sorted).2.1
  have hrs : Before r s := (List.pairwise_cons.mp htail).1 s (by simp)
  constructor
  · intro c hc' hpad
    obtain ⟨d, hd, hcd, hdp, hlevel⟩ := h.levels.fwd c hc' hpad
    have hfirst : SamePrefix c r → r.ZeroPadded → r.level = c.level →
        ∃ e ∈ as ++ joined r s :: ss, SamePrefix c e ∧ e.ZeroPadded ∧ e.level = c.level :=
      fun h1 h2 h3 => ⟨joined r s, hmem, h1.trans hkey.samePrefix, hkey.zeroPadded.mpr h2,
        hkey.level.trans h3⟩
    rcases List.mem_append.mp hd with hd | hd
    · exact ⟨d, by simp [hd], hcd, hdp, hlevel⟩
    · rcases List.mem_cons.mp hd with rfl | hd
      · exact hfirst hcd hdp hlevel
      · rcases List.mem_cons.mp hd with rfl | hd
        · -- a padded range joins only one of its level, which is padded too
          have hle := hrs.level_le hs
          have heq : r.level = d.level :=
            ((compatible_iff_level hle).mp hc).resolve_right (by simp [hdp])
          have hrpad : r.ZeroPadded := by
            by_contra hno
            exact not_zeroPadded_of_le heq (hrs.lo_le hs hc) hno hdp
          exact hfirst (hcd.trans hs.symm) hrpad (heq.trans hlevel)
        · exact ⟨d, by simp [hd], hcd, hdp, hlevel⟩
  · intro d hd hpad
    rcases List.mem_append.mp hd with hd | hd
    · exact h.levels.bwd d (by simp [hd]) hpad
    · rcases List.mem_cons.mp hd with rfl | hd
      · obtain ⟨c, hc', hrc, hcp, hlevel⟩ :=
          h.levels.bwd r (by simp) (hkey.zeroPadded.mp hpad)
        exact ⟨c, hc', hkey.samePrefix.symm.trans hrc, hcp, hlevel.trans hkey.level.symm⟩
      · exact h.levels.bwd d (by simp [hd]) hpad

theorem Lined.join (h : Lined ps (as ++ r :: s :: ss)) (hj : Joins r s) :
    Lined ps (as ++ joined r s :: ss) := by
  have hkey := joined_key r s
  have hr := h.pushed r (by simp)
  have hs := h.pushed s (by simp)
  obtain ⟨hrs, hsucc⟩ := h.succ_of_joins hj
  have hblock := h.sameBlock hj.1 hj.2.2
  have hord := (names_joined hj hr.toWf hs.toWf hr.ordered hs.ordered (by omega)).2
  refine ⟨⟨fun d hd => ?_, ?_, .join h.toState hj.1 hj.2.2⟩, ?_⟩
  · rcases List.mem_append.mp hd with hd | hd
    · exact h.pushed d (by simp [hd])
    · rcases List.mem_cons.mp hd with rfl | hd
      · exact ⟨joined_ok hj hr.toWf hs.toWf, hord⟩
      · exact h.pushed d (by simp [hd])
  · refine pairwise_join (fun x hx => ?_) (fun y hy _ => ?_) h.sorted
    · exact ((SameKey.refl x).before hkey).mpr hx
    · exact (hkey.before (.refl y)).mpr hy
  · refine pairwise_join (fun x hx hxs hxj => ?_) (fun y _ hy _ hjy => ?_) h.inLine
    · rw [joined_lo]
      exact hx hxs (hxj.trans (hkey.sameBlock ps).symm)
    · exact hy (hj.1.2 ▸ hrs) (hblock.symm.trans ((hkey.sameBlock ps).trans hjy))

theorem Lined.names_join (h : Lined ps (as ++ r :: s :: ss)) (hj : Joins r s) :
    (joined r s).names = r.names ++ s.names := by
  have hr := h.pushed r (by simp)
  have hs := h.pushed s (by simp)
  obtain ⟨-, hsucc⟩ := h.succ_of_joins hj
  exact (names_joined hj hr.toWf hs.toWf hr.ordered hs.ordered (by omega)).1

theorem Lined.numbersIn_join (h : Lined ps (as ++ r :: s :: ss)) (hj : Joins r s)
    (g : HostRange) : numbersIn ps g (joined r s) = numbersIn ps g r ++ numbersIn ps g s := by
  obtain ⟨hrs, hsucc⟩ := h.succ_of_joins hj
  have hro := (h.pushed r (by simp)).ordered hrs
  have hso := (h.pushed s (by simp)).ordered (hj.1.2 ▸ hrs)
  have hblock := h.sameBlock hj.1 hj.2.2
  have hkblock := (joined_key r s).sameBlock ps
  have hnum : (joined r s).numbers = r.numbers ++ s.numbers := by
    have hhi : (joined r s).hi = s.hi := rfl
    unfold HostRange.numbers
    rw [joined_lo, hhi, range'_split r.lo (r.hi + 1 - r.lo) _ (by omega)]
    have h1 : r.lo + (r.hi + 1 - r.lo) = s.lo := by omega
    have h2 : s.hi + 1 - r.lo - (r.hi + 1 - r.lo) = s.hi + 1 - s.lo := by omega
    rw [h1, h2]
  unfold numbersIn
  by_cases hg : SameBlock ps g r
  · rw [if_pos (hg.trans hkblock), if_pos hg, if_pos (hg.trans hblock), hnum]
  · rw [if_neg fun hgj => hg (hgj.trans hkblock.symm), if_neg hg,
      if_neg fun hgs => hg (hgs.trans hblock.symm)]
    rfl

/-- What the first of two ranges joined leaves alone, the second does. -/
theorem Lined.not_joins (h : Lined ps (as ++ r :: s :: t :: ss)) (hj : Joins r s)
    (hno : ¬ Joins s t) : ¬ Joins (joined r s) t := by
  rintro ⟨hsame, hcut, hcompat⟩
  have hkey := joined_key r s
  have htail := (List.pairwise_append.mp h.sorted).2.1
  obtain ⟨hr, hrest⟩ := List.pairwise_cons.mp htail
  have hst : SamePrefix s t := hj.1.symm.trans (hkey.samePrefix.trans hsame)
  have hlrs := (hr s (by simp)).level_le hj.1
  have hlst := ((List.pairwise_cons.mp hrest).1 t (by simp)).level_le hst
  have hlevel := hkey.level
  refine hno ⟨hst, hcut, (compatible_iff_level hlst).mpr ?_⟩
  rcases (compatible_iff_level (by omega)).mp hcompat with heq | hpad
  · exact .inl (by omega)
  · exact .inr hpad

end

/-- What the second loop keeps of ranges in line. -/
structure Collapses (ps as rs ss : List HostRange) : Prop where
  lined : Lined ps (as ++ ss)
  names : names ss = Slurm.Hosts.names rs
  numbers : ∀ g, blockNumbers ps g ss = blockNumbers ps g rs
  unjoined : Unjoined ss

/-- The second loop leaves no neighbours to join, and the names and numbers. -/
theorem Lined.collapse {ps : List HostRange} (rs : List HostRange) :
    ∀ as : List HostRange, Lined ps (as ++ rs) → Collapses ps as rs (collapseRanges rs) := by
  induction rs with
  | nil => exact fun as h => ⟨h, rfl, fun _ => rfl, .nil⟩
  | cons r rs ih =>
    intro as h
    have hlist : ∀ xs, as ++ r :: xs = (as ++ [r]) ++ xs := by simp
    obtain ⟨hlined, hnames, hnums, hchain⟩ := ih (as ++ [r]) (hlist rs ▸ h)
    have hstep : collapseRanges (r :: rs) = joinBefore r (collapseRanges rs) := rfl
    rw [hstep]
    generalize collapseRanges rs = ss at hlined hnames hnums hchain
    rw [← hlist] at hlined
    cases ss with
    | nil =>
      refine ⟨hlined, ?_, fun g => ?_, .singleton r⟩
      · rw [joinBefore, names_cons, names_cons, hnames]
      · rw [joinBefore, blockNumbers_cons, blockNumbers_cons, hnums]
    | cons s ss =>
      by_cases hj : Joins r s
      · rw [joinBefore, if_pos hj]
        refine ⟨hlined.join hj, ?_, fun g => ?_, ?_⟩
        · rw [names_cons, names_cons, hlined.names_join hj, List.append_assoc, ← hnames,
            names_cons]
        · rw [blockNumbers_cons, blockNumbers_cons, hlined.numbersIn_join hj,
            List.append_assoc, ← hnums, blockNumbers_cons]
        · cases ss with
          | nil => exact .singleton _
          | cons t ss => exact .cons_cons (hlined.not_joins hj hchain.rel) hchain.tail
      · rw [joinBefore, if_neg hj]
        refine ⟨hlined, ?_, fun g => ?_, .cons_cons hj hchain⟩
        · rw [names_cons, names_cons r rs, hnames]
        · rw [blockNumbers_cons, blockNumbers_cons r rs, hnums]

/-! ## The comparison -/

theorem count_numbers (r : HostRange) (k : Nat) :
    r.numbers.count k = if r.lo ≤ k ∧ k ≤ r.hi then 1 else 0 := by
  have hnodup : r.numbers.Nodup := List.nodup_range' 1
  rw [hnodup.count]
  refine if_congr ?_ rfl rfl
  rw [HostRange.numbers, List.mem_range'_1]
  omega

theorem count_numbersIn (ps : List HostRange) (g r : HostRange) (k : Nat) :
    (numbersIn ps g r).count k = if SameBlock ps g r ∧ r.lo ≤ k ∧ k ≤ r.hi then 1 else 0 := by
  unfold numbersIn
  by_cases hg : SameBlock ps g r
  · rw [if_pos hg, count_numbers]
    exact if_congr (by simp [hg]) rfl rfl
  · rw [if_neg hg, if_neg fun h => hg h.1]
    rfl

/-- Numbers that no range of a block holds. -/
theorem count_blockNumbers_eq_zero {ps rs : List HostRange} {g : HostRange} {k : Nat}
    (h : ∀ r ∈ rs, SameBlock ps g r → k < r.lo ∨ r.hi < k) :
    (blockNumbers ps g rs).count k = 0 := by
  rw [List.count_eq_zero]
  intro hmem
  obtain ⟨r, hr, hk⟩ := List.mem_flatMap.mp hmem
  unfold numbersIn at hk
  split at hk
  next hg =>
    rw [HostRange.numbers, List.mem_range'_1] at hk
    have hout := h r hr hg
    omega
  next => cases hk

/-- Where each range of a block starts at `k` or before, `k + 1` is named no more
often than `k`. -/
theorem count_blockNumbers_succ_le {ps rs : List HostRange} {g : HostRange} {k : Nat}
    (h : ∀ r ∈ rs, SameBlock ps g r → r.lo ≤ k) :
    (blockNumbers ps g rs).count (k + 1) ≤ (blockNumbers ps g rs).count k := by
  induction rs with
  | nil => exact Nat.le_refl _
  | cons r rs ih =>
    have hrec := ih fun s hs => h s (by simp [hs])
    have hone : (numbersIn ps g r).count (k + 1) ≤ (numbersIn ps g r).count k := by
      rw [count_numbersIn, count_numbersIn]
      by_cases hg : SameBlock ps g r
      · have hlo := h r (by simp) hg
        split <;> split <;> simp_all
        omega
      · rw [if_neg fun hh => hg hh.1]
        exact Nat.zero_le _
    rw [blockNumbers_cons, List.count_append, List.count_append]
    omega

/-- Ranges of one block lie near when all ranges do whose widths are compatible. -/
theorem SameBlock.near {ps : List HostRange} {a b : HostRange} (ha : a ∈ ps) (hb : b ∈ ps)
    (hnear : ∀ a ∈ ps, ∀ b ∈ ps, Near a b) (h : SameBlock ps a b) :
    b.lo < a.lo + 2147483648 := by
  have hown : ∀ c ∈ ps, c.ZeroPadded → ∃ d ∈ ps, SamePrefix c d ∧ d.ZeroPadded ∧
      d.level = c.level := fun c hc hpad => ⟨c, hc, ⟨rfl, rfl⟩, hpad, rfl⟩
  have hcompat : Compatible a b := by
    rcases Nat.le_total a.level b.level with hle | hle
    · exact h.compatible hle (hown b hb)
    · exact compatible_comm.mp (h.symm.compatible hle (hown a ha))
  exact (hnear a ha b hb h.1 hcompat).2

/-- Neighbours that do not join lie near: a block has no gap as wide as an `int`
unless a range of it starts behind the gap. -/
theorem Lined.near {ps as bs : List HostRange} {g k : HostRange}
    (h : Lined ps (as ++ g :: k :: bs)) (hno : ¬ Joins g k)
    (hnums : (blockNumbers ps g (as ++ g :: k :: bs)).Perm (blockNumbers ps g ps))
    (hnear : ∀ a ∈ ps, ∀ b ∈ ps, Near a b) : Near g k := by
  intro hs hc
  obtain ⟨-, htail, hcross⟩ := List.pairwise_append.mp h.sorted
  obtain ⟨-, hline, hlcross⟩ := List.pairwise_append.mp h.inLine
  have hgk : Before g k := (List.pairwise_cons.mp htail).1 k (by simp)
  have hlo := hgk.lo_le hs hc
  have hg := h.pushed g (by simp)
  have hk := h.pushed k (by simp)
  by_contra hfar
  have hfar' : g.lo + 2147483648 ≤ k.lo := by
    by_contra hlt
    exact hfar ⟨by omega, by omega⟩
  have hgs : g.singlehost = false := by
    cases hgs : g.singlehost with
    | false => rfl
    | true =>
      have hz := hk.single (hs.2 ▸ hgs)
      omega
  have hks : k.singlehost = false := hs.2 ▸ hgs
  have hgo := hg.ordered hgs
  have hko := hk.ordered hks
  have hblock : SameBlock ps g k := h.sameBlock hs hc
  have hghi : g.hi ≤ k.lo := (List.pairwise_cons.mp hline).1 k (by simp) hgs hblock
  obtain ⟨z, hz⟩ : ∃ z, z + 1 = k.lo := ⟨k.lo - 1, by omega⟩
  -- every range the block had starts before the gap ends
  have hstart : ∀ r ∈ ps, SameBlock ps g r → r.lo ≤ z := by
    have hmem : g.lo ∈ blockNumbers ps g (as ++ g :: k :: bs) := by
      refine List.mem_flatMap.mpr ⟨g, by simp, ?_⟩
      rw [numbersIn, if_pos (.refl ps g), HostRange.numbers, List.mem_range'_1]
      omega
    obtain ⟨o, ho, hin⟩ := List.mem_flatMap.mp (hnums.mem_iff.mp hmem)
    unfold numbersIn at hin
    split at hin
    next hgo' =>
      rw [HostRange.numbers, List.mem_range'_1] at hin
      intro r hr hgr
      have hor := (hgo'.symm.trans hgr).near ho hr hnear
      omega
    next => cases hin
  have hle := count_blockNumbers_succ_le hstart
  rw [← hnums.count_eq, ← hnums.count_eq] at hle
  -- in the list left, only `g` can hold the number before `k`, which `k` and it hold
  have has : (blockNumbers ps g as).count z = 0 := by
    refine count_blockNumbers_eq_zero fun x hx hgx => .inr ?_
    have hxg := hlcross x hx g (by simp) (hgx.1.2 ▸ hgs) hgx.symm
    omega
  have hbs : (blockNumbers ps g bs).count z = 0 := by
    refine count_blockNumbers_eq_zero fun y hy hgy => .inl ?_
    have hky := (List.pairwise_cons.mp (List.pairwise_cons.mp hline).2).1 y hy hks
      (hblock.symm.trans hgy)
    omega
  have hkz : (numbersIn ps g k).count z = 0 := by
    rw [count_numbersIn, if_neg fun hh => by omega]
  have hkz' : (numbersIn ps g k).count (z + 1) = 1 := by
    rw [count_numbersIn, if_pos ⟨hblock, by omega, by omega⟩]
  simp only [blockNumbers_append, blockNumbers_cons, List.count_append, has, hbs, hkz, hkz'] at hle
  rw [count_numbersIn, count_numbersIn] at hle
  have hhi : z ≤ g.hi := by
    by_contra hgt
    rw [if_neg fun hh : SameBlock ps g g ∧ g.lo ≤ z ∧ z ≤ g.hi => hgt hh.2.2] at hle
    omega
  have hend : ¬ z + 1 ≤ g.hi := by
    intro hin
    have hself : SameBlock ps g g := .refl ps g
    rw [if_pos ⟨hself, by omega, hin⟩, if_pos ⟨hself, by omega, hhi⟩] at hle
    omega
  refine hno ⟨hs, ?_, hc⟩
  have hlt := hk.lo_lt
  unfold ulong
  omega

/-- The ranges left are in the order of `hostrange_cmp`. -/
theorem Lined.isChain {ps : List HostRange} (hnear : ∀ a ∈ ps, ∀ b ∈ ps, Near a b) :
    ∀ (rs as : List HostRange), Lined ps (as ++ rs) → Unjoined rs →
      (∀ g, (blockNumbers ps g (as ++ rs)).Perm (blockNumbers ps g ps)) →
      rs.IsChain fun a b => (hostrangeCmp a b).1 ≤ 0 := by
  intro rs
  induction rs with
  | nil => exact fun _ _ _ _ => .nil
  | cons g rs ih =>
    intro as h hun hnums
    cases rs with
    | nil => exact .singleton g
    | cons k bs =>
      have hlist : as ++ g :: k :: bs = (as ++ [g]) ++ k :: bs := by simp
      have hgk : Before g k :=
        (List.pairwise_cons.mp (List.pairwise_append.mp h.sorted).2.1).1 k (by simp)
      have hclose : Near g k := h.near hun.rel (hnums g) hnear
      refine .cons_cons ((hostrangeCmp_le_iff hclose).mpr hgk) ?_
      exact ih (as ++ [g]) (hlist ▸ h) hun.tail fun x => hlist ▸ hnums x

/-! ## `qsort` -/

/-- What the conditions on ranges depend on. -/
theorem Kept.numbers {r s : HostRange} (h : Kept r s) : s.numbers = r.numbers := by
  obtain ⟨w, rfl, -⟩ := h.1
  rfl

theorem Kept.tame {ps : List HostRange} {a a' b b' : HostRange} (ha : Kept a a')
    (hb : Kept b b') : Tame ps a' b' ↔ Tame ps a b := by
  obtain ⟨w, rfl, hw⟩ := ha.1
  obtain ⟨v, rfl, hv⟩ := hb.1
  have hka := ha.1.sameKey
  have hkb := hb.1.sameKey
  have hblock : SameBlock ps { a with width := w } { b with width := v } ↔ SameBlock ps a b :=
    ⟨fun h => ((hka.sameBlock ps).trans h).trans (hkb.sameBlock ps).symm,
      fun h => ((hka.sameBlock ps).symm.trans h).trans (hkb.sameBlock ps)⟩
  unfold Tame
  rw [hblock, hka.level]
  rfl

/-- Sorting keeps a list tame or not. -/
theorem pairwise_tame_congr {ps rs ss : List HostRange} (h : List.Forall₂ Kept rs ss) :
    ss.Pairwise (Tame ps) ↔ rs.Pairwise (Tame ps) := by
  induction h with
  | nil => exact Iff.rfl
  | @cons r s rs ss hrs hrest ih =>
    rw [List.pairwise_cons, List.pairwise_cons, ih]
    refine and_congr_left fun _ => ⟨fun hall x hx => ?_, fun hall y hy => ?_⟩
    · obtain ⟨i, hi, rfl⟩ := List.getElem_of_mem hx
      have hi' : i < ss.length := by rw [← hrest.length_eq]; exact hi
      exact (hrs.tame (hrest.get hi hi')).mp (hall _ (List.getElem_mem hi'))
    · obtain ⟨i, hi, rfl⟩ := List.getElem_of_mem hy
      have hi' : i < rs.length := by rw [hrest.length_eq]; exact hi
      exact (hrs.tame (hrest.get hi' hi)).mpr (hall _ (List.getElem_mem hi'))

theorem blockNumbers_congr {ps rs ss : List HostRange} (h : List.Forall₂ Kept rs ss)
    (g : HostRange) : blockNumbers ps g ss = blockNumbers ps g rs := by
  induction h with
  | nil => rfl
  | @cons r s rs ss hrs _ ih =>
    have hblock : SameBlock ps g s ↔ SameBlock ps g r :=
      ⟨fun h => h.trans (hrs.1.sameKey.sameBlock ps).symm,
        fun h => h.trans (hrs.1.sameKey.sameBlock ps)⟩
    rw [blockNumbers_cons, blockNumbers_cons, ih, numbersIn, numbersIn, hrs.numbers]
    exact congrArg (· ++ _) (if_congr hblock rfl rfl)

/-- What `qsort` makes of ordered ranges that lie near. -/
theorem qsort_state {qsort : List HostRange → List HostRange}
    (hq : Sorts hostrangeCmp Kept HostRange.Wf qsort) {rs : List HostRange}
    (hp : ∀ r ∈ rs, r.Pushed) (hnear : ∀ a ∈ rs, ∀ b ∈ rs, Near a b) :
    State rs (qsort rs) ∧ ((qsort rs).Pairwise (Tame rs) ↔ rs.Pairwise (Tame rs)) ∧
      ∀ g, (blockNumbers rs g (qsort rs)).Perm (blockNumbers rs g rs) := by
  have hwf : ∀ r ∈ rs, r.Wf := fun r hr => (hp r hr).toWf
  obtain ⟨ts, hperm, hts⟩ := hq.rearranges rs hwf
  obtain ⟨-, hback, -, -⟩ := qsort_kept hq hwf
  have hforth : ∀ r ∈ rs, ∃ s ∈ qsort rs, Kept r s := by
    intro r hr
    obtain ⟨i, hi, rfl⟩ := List.getElem_of_mem (hperm.mem_iff.mpr hr)
    have hi' : i < (qsort rs).length := by rw [← hts.length_eq]; exact hi
    exact ⟨_, List.getElem_mem hi', hts.get hi hi'⟩
  refine ⟨⟨fun s hs => ?_, qsort_sorted hq hwf hnear, fun c hc hpad => ?_, fun d hd hpad => ?_⟩,
    ?_, fun g => ?_⟩
  · obtain ⟨r, hr, hk⟩ := hback s hs
    exact hk.pushed (hp r hr)
  · obtain ⟨d, hd, hk⟩ := hforth c hc
    have hkey := hk.1.sameKey
    exact ⟨d, hd, hkey.samePrefix, hkey.zeroPadded.mpr hpad, hkey.level⟩
  · obtain ⟨c, hc, hk⟩ := hback d hd
    have hkey := hk.1.sameKey
    exact ⟨c, hc, hkey.samePrefix.symm, hkey.zeroPadded.mp hpad, hkey.level.symm⟩
  · rw [pairwise_tame_congr hts]
    exact hperm.pairwise_iff fun h => h.symm
  · rw [blockNumbers_congr hts]
    exact hperm.flatMap_right _

/-! ## `hostlist_sort` -/

/-- `hostlist_sort` returns a list with the same host count and names, in order:
no range is above the next by `hostrange_cmp`, nor above any later one. -/
structure SortsTo (hl hl' : Hostlist) : Prop where
  nhosts : hl'.nhosts = hl.nhosts
  ranges : ∃ rs ss, hl.ranges = some rs ∧ hl'.ranges = some ss ∧ (names ss).Perm (names rs) ∧
    ss.Pairwise Before ∧ ss.IsChain fun a b => (hostrangeCmp a b).1 ≤ 0

/-- Some number of turns is enough for `hostlist_sort` to return, and what it returns
is sorted. -/
def SortsWell (qsort : List HostRange → List HostRange) (hl : Hostlist) : Prop :=
  ∃ fuel hl', hostlistSort qsort fuel hl = some hl' ∧ SortsTo hl hl'

/-- When `hostlist_sort` does so: no range was wrapped while the list was built, the
comparison is an order, and ranges are tame. A list of one range is left as it is. -/
def Sortable (rs : List HostRange) : Prop :=
  rs.length ≤ 1 ∨
    (∀ r ∈ rs, r.Ordered) ∧ (∀ a ∈ rs, ∀ b ∈ rs, Near a b) ∧ rs.Pairwise (Tame rs)

instance (rs : List HostRange) : Decidable (Sortable rs) :=
  inferInstanceAs (Decidable (_ ∨ _ ∧ _ ∧ _))

section

variable {qsort : List HostRange → List HostRange} {hl : Hostlist} {rs : List HostRange}

theorem hostlistSort_short (h : Holds hl rs) (hone : rs.length ≤ 1) (fuel : Nat) :
    hostlistSort qsort fuel hl = some hl := by
  obtain ⟨⟨free, rfl⟩, -⟩ := h
  rw [hostlistSort, if_pos]
  exact hone

/-- On more ranges than one `hostlist_sort` is the scan of the sorted ranges and the second
loop. -/
theorem hostlistSort_long (hq : Sorts hostrangeCmp Kept HostRange.Wf qsort)
    (h : Holds hl rs) (hmany : ¬ rs.length ≤ 1) : ∃ free, ∀ fuel,
    hostlistSort qsort fuel hl =
      (coalesceLoop fuel ((qsort rs).length - 1)
        (Hostlist.ofRanges (qsort rs) free hl.nhosts)).bind hostlistCollapse := by
  obtain ⟨⟨free, rfl⟩, hok⟩ := h
  obtain ⟨hlen, -, -, -⟩ := qsort_kept hq fun r hr => (hok r hr).toWf
  refine ⟨free, fun fuel => ?_⟩
  rw [hostlistSort, if_neg (by rw [ofRanges_nranges]; exact hmany), sortRanges_ofRanges hlen,
    Option.bind_some, ofRanges_nhosts]
  rfl

/-- `hostlist_sort` sorts every list that is `Sortable`. -/
theorem Sortable.sortsWell (h : Sortable rs)
    (hq : Sorts hostrangeCmp Kept HostRange.Wf qsort) (hh : Holds hl rs) :
    SortsWell qsort hl := by
  by_cases hone : rs.length ≤ 1
  · refine ⟨0, hl, hostlistSort_short hh hone 0, rfl, rs, rs, hh.ranges, hh.ranges, .refl _, ?_⟩
    match rs, hone with
    | [], _ => exact ⟨.nil, .nil⟩
    | [r], _ => exact ⟨List.pairwise_singleton _ r, .singleton r⟩
  · obtain ⟨hord, hnear, htame⟩ := h.resolve_left hone
    obtain ⟨hst, htiff, hnums⟩ :=
      qsort_state hq (fun r hr => ⟨hh.ok r hr, hord r hr⟩) hnear
    obtain ⟨-, -, hnames, -⟩ := qsort_kept hq fun r hr => (hh.ok r hr).toWf
    obtain ⟨free, hsort⟩ := hostlistSort_long hq hh hone
    obtain ⟨r, hscan⟩ := hst.scans
    obtain ⟨ts, rfl⟩ := Option.isSome_iff_exists.mp ((hscan.tame hst).mpr (htiff.mpr htame))
    obtain ⟨free1, hret⟩ := @Scans.returns hl.nhosts _ _ _ hscan hst free
    obtain ⟨fuel, hloop⟩ := (hret _).mpr rfl
    obtain ⟨free2, hcol⟩ := hostlistCollapse_ofRanges ts free1 hl.nhosts
    have hset := hscan.settles hst
    have hdone := (hset.state.lined hset.settled).collapse ts []
    refine ⟨fuel, Hostlist.ofRanges (collapseRanges ts) free2 hl.nhosts, ?_,
      ofRanges_nhosts _ _ _, rs, collapseRanges ts, hh.ranges, ofRanges_ranges _ _ _, ?_,
      hdone.lined.sorted, ?_⟩
    · rw [hsort, hloop, Option.bind_some]
      exact hcol
    · rw [hdone.names]
      exact hset.names.trans hnames
    · refine hdone.lined.isChain hnear _ [] hdone.unjoined fun g => ?_
      rw [List.nil_append, hdone.numbers]
      exact (hset.numbers g).trans (hnums g)

/-- If `hostlist_sort` returns at all, ordered ranges that lie near are tame. -/
theorem sortable_of_returns (hq : Sorts hostrangeCmp Kept HostRange.Wf qsort)
    (hh : Holds hl rs) (hord : ∀ r ∈ rs, r.Ordered)
    (hnear : ∀ a ∈ rs, ∀ b ∈ rs, Near a b) {fuel : Nat} {hl' : Hostlist}
    (h : hostlistSort qsort fuel hl = some hl') : Sortable rs := by
  by_cases hone : rs.length ≤ 1
  · exact .inl hone
  · obtain ⟨hst, htiff, -⟩ := qsort_state hq (fun r hr => ⟨hh.ok r hr, hord r hr⟩) hnear
    obtain ⟨free, hsort⟩ := hostlistSort_long hq hh hone
    rw [hsort] at h
    obtain ⟨out, hloop, -⟩ := Option.bind_eq_some_iff.mp h
    obtain ⟨r, hscan⟩ := hst.scans
    cases r with
    | none => exact absurd ⟨fuel, hloop⟩ (hscan.not_returns hst free out)
    | some ts => exact .inr ⟨hord, hnear, htiff.mp ((hscan.tame hst).mp rfl)⟩

end

/-- On every list built from strings `hostlist_sort` returns it sorted whenever it is
`Sortable`; and only then, when no range was wrapped and the comparison is an order. -/
theorem hostlistSort_iff {qsort : List HostRange → List HostRange}
    (hq : Sorts hostrangeCmp Kept HostRange.Wf qsort) {hl : Hostlist} (hb : Built hl) :
    ∃ rs, hl.ranges = some rs ∧ (Sortable rs → SortsWell qsort hl) ∧
      ((∀ r ∈ rs, r.Ordered) → (∀ a ∈ rs, ∀ b ∈ rs, Near a b) →
        (SortsWell qsort hl ↔ Sortable rs)) := by
  obtain ⟨rs, hh⟩ := hb.holds
  refine ⟨rs, hh.ranges, fun h => h.sortsWell hq hh, fun hord hnear => ⟨?_, ?_⟩⟩
  · rintro ⟨fuel, hl', hsort, -⟩
    exact sortable_of_returns hq hh hord hnear hsort
  · exact fun h => h.sortsWell hq hh

theorem hostlistSort_iff_overlap :
    ∃ hl, hostlistCreate "a[2-4],b,a[1-5]".toList = .ok hl ∧
      SortsWell (insertionSort hostrangeCmp) hl := by
  have hcreate : hostlistCreate "a[2-4],b,a[1-5]".toList =
      .ok (Hostlist.ofRanges [hostrangeCreate ['a'] 2 4 1, hostrangeCreateSingle ['b'],
        hostrangeCreate ['a'] 1 5 1] 13 9) := rfl
  obtain ⟨rs, hrs, -, hiff⟩ := hostlistSort_iff insertionSort_hostrange (.create hcreate)
  rw [ofRanges_ranges] at hrs
  obtain rfl := Option.some.inj hrs
  have hord : ∀ r ∈ [hostrangeCreate ['a'] 2 4 1, hostrangeCreateSingle ['b'],
      hostrangeCreate ['a'] 1 5 1], r.Ordered := by decide
  exact ⟨_, hcreate, (hiff hord (by decide)).mpr (by decide)⟩

/-- The first two ranges share the numbers up to 12, as long as those of the third,
which is padded to two digits: the part `a[12-20]` then overlaps `a[08-09]`, behind
which it has no place. -/
theorem hostlistSort_stuck :
    ∃ hl, hostlistCreate "a[8-12],a[9-20],a[08-09]".toList = .ok hl ∧
      ∀ qsort, Sorts hostrangeCmp Kept HostRange.Wf qsort →
        (∀ fuel, hostlistSort qsort fuel hl = none) ∧ ¬ SortsWell qsort hl := by
  have hcreate : hostlistCreate "a[8-12],a[9-20],a[08-09]".toList =
      .ok (Hostlist.ofRanges [hostrangeCreate ['a'] 8 12 1, hostrangeCreate ['a'] 9 20 1,
        hostrangeCreate ['a'] 8 9 2] 13 19) := rfl
  refine ⟨_, hcreate, fun qsort hq => ?_⟩
  obtain ⟨rs, hh⟩ := (Built.create hcreate).holds
  have hrs := hh.ranges
  rw [ofRanges_ranges] at hrs
  obtain rfl := Option.some.inj hrs
  have hno : ¬ Sortable [hostrangeCreate ['a'] 8 12 1, hostrangeCreate ['a'] 9 20 1,
      hostrangeCreate ['a'] 8 9 2] := by decide
  have hnone : ∀ fuel hl', hostlistSort qsort fuel (Hostlist.ofRanges
      [hostrangeCreate ['a'] 8 12 1, hostrangeCreate ['a'] 9 20 1, hostrangeCreate ['a'] 8 9 2]
        13 19) ≠ some hl' := fun fuel hl' h =>
    hno (sortable_of_returns hq hh (by decide) (by decide) h)
  refine ⟨fun fuel => Option.eq_none_iff_forall_ne_some.mpr (hnone fuel), ?_⟩
  rintro ⟨fuel, hl', h, -⟩
  exact hnone fuel hl' h

end Slurm.Hosts
