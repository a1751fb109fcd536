import SlurmLite.Hostlist.Order

/-!
# Removing duplicates

`hostlist_uniq` sorts the ranges and joins neighbours that touch. Joining two
ranges forms their union and counts the names they share
(`hostrangeJoin_of_touches`), so what is left holds the same names. A name
stays twice exactly when two ranges that share it end up in different blocks:

* their prefixes differ, as those of `a1[2]` and `a12` do;
* or a zero-padded range of a level between theirs sorts between them, as the
  second range of `a[8-12],a[08-12]` does.

`Separated` says that, and `hostlistUniq_iff` that it is the only way to fail, besides
host counts an `int` cannot hold. `qsort` is a parameter, with what is documented
of it (`Base.Sort.Sorts`) for a hypothesis.
-/

namespace Slurm.Hosts

open Base.Text Base.CLib Base.Sort

/-- `_attempt_range_join`. -/
def attemptRangeJoin (hl : Hostlist) (loc : Nat) : Option (Int × Hostlist) := do
  let h1 ← hl.range (loc - 1)
  let h2 ← hl.range loc
  let j := hostrangeJoin h1 h2
  let hl := (hl.setSlot (loc - 1) (.live j.2.1)).setSlot loc (.live j.2.2)
  if j.1 ≥ 0 then
    some (j.1, { hostlistDeleteRange hl loc with nhosts := int32 (hl.nhosts - j.1) })
  else some (j.1, hl)

/-- The loop of `hostlist_uniq`. -/
def uniqLoop : Nat → Nat → Hostlist → Option Hostlist
  | 0, _, hl => some hl
  | fuel + 1, i, hl =>
    if i < hl.nranges then do
      let r ← attemptRangeJoin hl i
      if r.1 < 0 then uniqLoop fuel (i + 1) r.2 else uniqLoop fuel i r.2
    else some hl

/-- The ranges in use, sorted by `qsort` with `hostrange_cmp`. -/
def sortRanges (qsort : List HostRange → List HostRange) (hl : Hostlist) : Option Hostlist :=
  hl.ranges.map fun rs =>
    { hl with hr := (qsort rs).map .live ++ hl.hr.drop hl.nranges }

/-- `hostlist_uniq`. Each turn of the loop moves on or removes a range, so
`nranges` turns are enough. -/
def hostlistUniq (qsort : List HostRange → List HostRange) (hl : Hostlist) :
    Option Hostlist :=
  if hl.nranges ≤ 1 then some hl
  else do
    let hl ← sortRanges qsort hl
    uniqLoop hl.nranges 1 hl

/-! ## Joining two ranges -/

/-- Two ranges, the lower one first, that `hostrange_join` joins. -/
def Touches (a b : HostRange) : Prop :=
  SamePrefix a b ∧ Compatible a b ∧ (a.singlehost = true ∨ b.lo ≤ a.hi + 1)

instance (a b : HostRange) : Decidable (Touches a b) :=
  inferInstanceAs (Decidable (_ ∧ _ ∧ _))

/-- `c` is the union of `a` and `b`, which share `d` names. -/
structure Joined (a b c : HostRange) (d : Int) : Prop where
  pushed : c.Pushed
  key : SameKey a c
  names : ∀ h, h ∈ c.names ↔ h ∈ a.names ∨ h ∈ b.names
  count : d + c.names.length = a.names.length + b.names.length

/-- The union of two ranges with numbers. -/
theorem joined_union {a b : HostRange} (ha : a.Pushed) (hb : b.Pushed)
    (hs : a.singlehost = false) (ht : Touches a b) (hlo : a.lo ≤ b.lo) :
    Joined a b { (hostrangeWidthCombine a b).2.1 with hi := max a.hi b.hi }
      (min a.hi b.hi + 1 - b.lo : Nat) := by
  obtain ⟨hsame, hcompat, htouch⟩ := ht
  have hsb : b.singlehost = false := hsame.2 ▸ hs
  have htouch : b.lo ≤ a.hi + 1 := htouch.resolve_left (by simp [hs])
  have hao := ha.ordered hs
  have hbo := hb.ordered hsb
  have halt := ha.hi_lt
  have hblt := hb.hi_lt
  obtain ⟨-, h1, h2, hw⟩ := hostrangeWidthCombine_spec a b
  have hwidth := hw hcompat
  obtain ⟨c, hc⟩ : ∃ c, c = { (hostrangeWidthCombine a b).2.1 with hi := max a.hi b.hi } :=
    ⟨_, rfl⟩
  rw [← hc]
  have hcs : c.singlehost = false := by rw [hc]; exact h1.singlehost.trans hs
  have hcp : c.pfx = a.pfx := by rw [hc]; exact h1.pfx
  have hclo : c.lo = a.lo := by rw [hc]; exact h1.lo
  have hchi : c.hi = max a.hi b.hi := by rw [hc]
  have hcw : c.width = (hostrangeWidthCombine a b).2.1.width := by rw [hc]
  refine ⟨⟨.of_bounds hcs (by omega) (by omega), fun _ => by omega⟩, ?_, fun h => ?_, ?_⟩
  · refine ⟨⟨hcp.symm, by rw [hcs, hs]⟩, hclo, ?_⟩
    have hlevel := h1.sameKey.level
    unfold HostRange.level at hlevel ⊢
    rw [hcw, hclo]
    rw [h1.lo] at hlevel
    exact hlevel
  · rw [mem_names_iff hcs, mem_names_iff hs, mem_names_iff hsb, hcp, hclo, hchi, hcw]
    constructor
    · rintro ⟨k, hk1, hk2, rfl⟩
      by_cases hk : k ≤ a.hi
      · exact .inl ⟨k, hk1, hk, by rw [h1.padded hk1]⟩
      · have hkb : b.lo ≤ k := by omega
        exact .inr ⟨k, hkb, by omega, by rw [hwidth, h2.padded hkb, hsame.1]⟩
    · rintro (⟨k, hk1, hk2, rfl⟩ | ⟨k, hk1, hk2, rfl⟩)
      · exact ⟨k, hk1, by omega, by rw [h1.padded hk1]⟩
      · exact ⟨k, by omega, by omega, by rw [hwidth, h2.padded hk1, hsame.1]⟩
  · rw [length_names, length_names, length_names, hcs, hs, hsb, hclo, hchi]
    simp only [Bool.false_eq_true, if_false]
    omega

/-- Ranges that touch are joined to their union. -/
theorem hostrangeJoin_of_touches {a b : HostRange} (ha : a.Pushed) (hb : b.Pushed)
    (hlt : Before a b) (ht : Touches a b) (hla : a.names.length < 2147483648)
    (hlb : b.names.length < 2147483648) :
    ∃ d c b', hostrangeJoin a b = (d, c, b') ∧ 0 ≤ d ∧ Joined a b c d := by
  obtain ⟨hsame, hcompat, -⟩ := id ht
  have hzero := hostrangePrefixCmp_eq_zero_iff.mpr hsame
  cases hs : a.singlehost with
  | true =>
    obtain rfl := hsame.eq_of_single ha.toWf hb.toWf hs
    refine ⟨1, a, a, ?_, by decide, ha, .refl a, fun h => (or_self_iff).symm, ?_⟩
    · unfold hostrangeJoin
      simp only [hzero, hostrangeWidthCombine_self, hs, Bool.and_self, if_true]
    · rw [length_names, hs]
      rfl
  | false =>
    have hsb : b.singlehost = false := hsame.2 ▸ hs
    have hlo := hlt.lo_le hsame hcompat
    have hjoin := joined_union ha hb hs ht hlo
    have htouch : b.lo ≤ a.hi + 1 := ht.2.2.resolve_left (by simp [hs])
    have hao := ha.ordered hs
    have hbo := hb.ordered hsb
    have hahi := ha.hi_lt
    have hbhi := hb.hi_lt
    have hlen := hla
    rw [length_names, hs] at hlen
    simp only [Bool.false_eq_true, if_false] at hlen
    obtain ⟨hone, h1, h2, -⟩ := hostrangeWidthCombine_spec a b
    rw [decide_eq_true hcompat] at hone
    have hcut : a.hi = ulong ((b.lo : Int) - 1) ↔ a.hi + 1 = b.lo := by
      unfold ulong
      omega
    unfold hostrangeJoin
    simp only [hzero, hone, hs, Bool.false_and, Bool.false_eq_true, if_true, if_false, hcut]
    refine ⟨_, _, (hostrangeWidthCombine a b).2.2, ?_, Int.natCast_nonneg _, hjoin⟩
    by_cases hadj : a.hi + 1 = b.lo
    · rw [if_pos hadj]
      have hd : min a.hi b.hi + 1 - b.lo = 0 := by omega
      have hm : max a.hi b.hi = b.hi := by omega
      rw [hd, hm]
      rfl
    · rw [if_neg hadj, if_pos (by omega)]
      by_cases hin : a.hi < b.hi
      · have hm : max a.hi b.hi = b.hi := by omega
        have hd : int32 (ulong ((a.hi : Int) - b.lo + 1)) =
            (min a.hi b.hi + 1 - b.lo : Nat) := by
          unfold int32 ulong
          rw [Int.bmod_def]
          split <;> omega
        rw [if_pos hin, hm, hd]
      · have hm : max a.hi b.hi = a.hi := by omega
        have hd : int32 (hostrangeCount b) = (min a.hi b.hi + 1 - b.lo : Nat) := by
          rw [hostrangeCount_eq_length hb.ordered hlb, length_names, hsb,
            int32_of_range (by omega) (by simp; omega)]
          simp
          omega
        rw [if_neg hin, hm, hd]
        have hself : { (hostrangeWidthCombine a b).2.1 with hi := a.hi } =
            (hostrangeWidthCombine a b).2.1 := by
          rw [← h1.hi]
        rw [hself]

/-- Ranges that do not touch are at most reprinted. -/
theorem hostrangeJoin_of_not {a b : HostRange} (ha : a.Pushed) (hb : b.Pushed)
    (hno : ¬ Touches a b) :
    ∃ a' b', hostrangeJoin a b = (-1, a', b') ∧ Kept a a' ∧ Kept b b' := by
  unfold hostrangeJoin
  by_cases hs : SamePrefix a b
  · rw [if_pos (hostrangePrefixCmp_eq_zero_iff.mpr hs)]
    simp only []
    by_cases hc : Compatible a b
    · have hsing : ¬ a.singlehost = true := fun h => hno ⟨hs, hc, .inl h⟩
      have hgap : ¬ b.lo ≤ a.hi + 1 := fun h => hno ⟨hs, hc, .inr h⟩
      have hblt := hb.lo_lt
      have hcut : ¬ a.hi = ulong ((b.lo : Int) - 1) := by
        unfold ulong
        omega
      obtain ⟨h1, h2⟩ := hostrangeWidthCombine_kept hs ha.toWf hb.toWf
      rw [(hostrangeWidthCombine_spec a b).1, if_pos (decide_eq_true hc),
        if_neg (by simp [hsing]), if_neg hcut, if_neg (by omega)]
      exact ⟨_, _, rfl, h1, h2⟩
    · rw [hostrangeWidthCombine_of_not hc]
      exact ⟨a, b, rfl, .refl a, .refl b⟩
  · rw [if_neg (fun h => hs (hostrangePrefixCmp_eq_zero_iff.mp h))]
    exact ⟨a, b, rfl, .refl a, .refl b⟩

/-! ## Joining along a list -/

/-- The ranges the loop of `hostlist_uniq` leaves of `t` and the ranges after it. -/
def joinAll (t : HostRange) : List HostRange → List HostRange
  | [] => [t]
  | r :: rs =>
    let j := hostrangeJoin t r
    if j.1 < 0 then j.2.1 :: joinAll j.2.2 rs else joinAll j.2.1 rs

/-- The duplicates it counts. -/
def dups (t : HostRange) : List HostRange → Int
  | [] => 0
  | r :: rs =>
    let j := hostrangeJoin t r
    if j.1 < 0 then dups j.2.2 rs else j.1 + dups j.2.1 rs

theorem attemptRangeJoin_ofRanges (as bs : List HostRange) (a b : HostRange) (free : Nat)
    (n : Int) :
    attemptRangeJoin (Hostlist.ofRanges (as ++ a :: b :: bs) free n) (as.length + 1) =
      some ((hostrangeJoin a b).1,
        if (hostrangeJoin a b).1 < 0 then
          Hostlist.ofRanges (as ++ (hostrangeJoin a b).2.1 :: (hostrangeJoin a b).2.2 :: bs)
            free n
        else
          Hostlist.ofRanges (as ++ (hostrangeJoin a b).2.1 :: bs) (free + 1)
            (int32 (n - (hostrangeJoin a b).1))) := by
  have hsplit : ∀ x y : HostRange, as ++ x :: y :: bs = (as ++ [x]) ++ y :: bs := by simp
  have hlen : ∀ x : HostRange, as.length + 1 = (as ++ [x]).length := by simp
  have hfst : (Hostlist.ofRanges (as ++ a :: b :: bs) free n).range (as.length + 1 - 1) =
      some a := ofRanges_range
  have hsnd : (Hostlist.ofRanges (as ++ a :: b :: bs) free n).range (as.length + 1) =
      some b := by
    rw [hsplit, hlen a]
    exact ofRanges_range
  unfold attemptRangeJoin
  rw [hfst, hsnd]
  simp only [Option.bind_eq_bind, Option.bind_some, Nat.add_sub_cancel]
  rw [setSlot_ofRanges, hsplit, hlen (hostrangeJoin a b).2.1, setSlot_ofRanges]
  by_cases hneg : (hostrangeJoin a b).1 < 0
  · rw [if_pos hneg, if_neg (by omega), List.append_assoc]
    rfl
  · rw [if_neg hneg, if_pos (by omega), hostlistDeleteRange_ofRanges, List.append_assoc]
    rfl

/-- The loop joins along the list. -/
theorem uniqLoop_ofRanges (rs : List HostRange) :
    ∀ (as : List HostRange) (t : HostRange) (free fuel : Nat) (n : Int), int32 n = n →
      rs.length ≤ fuel →
      ∃ free', uniqLoop fuel (as.length + 1) (Hostlist.ofRanges (as ++ t :: rs) free n) =
        some (Hostlist.ofRanges (as ++ joinAll t rs) free' (int32 (n - dups t rs))) := by
  induction rs with
  | nil =>
    intro as t free fuel n hn _
    refine ⟨free, ?_⟩
    rw [joinAll, dups, Int.sub_zero, hn]
    cases fuel with
    | zero => rfl
    | succ fuel => rw [uniqLoop, if_neg (by simp)]
  | cons r rs ih =>
    intro as t free fuel n hn hfuel
    obtain ⟨fuel, rfl⟩ : ∃ k, fuel = k + 1 := ⟨fuel - 1, by simp at hfuel; omega⟩
    have hfuel' : rs.length ≤ fuel := by simpa using hfuel
    rw [uniqLoop, if_pos (by simp), attemptRangeJoin_ofRanges, Option.bind_eq_bind,
      Option.bind_some, joinAll, dups]
    simp only []
    by_cases hneg : (hostrangeJoin t r).1 < 0
    · simp only [if_pos hneg]
      obtain ⟨free', hloop⟩ := ih (as ++ [(hostrangeJoin t r).2.1]) (hostrangeJoin t r).2.2
        free fuel n hn hfuel'
      rw [List.length_append, List.length_singleton, List.append_assoc,
        List.append_assoc] at hloop
      exact ⟨free', hloop⟩
    · simp only [if_neg hneg]
      obtain ⟨free', hloop⟩ := ih as (hostrangeJoin t r).2.1 (free + 1) fuel
        (int32 (n - (hostrangeJoin t r).1)) (int32_int32 _) hfuel'
      rw [int32_int32_sub, Int.sub_sub] at hloop
      exact ⟨free', hloop⟩

theorem sortRanges_ofRanges {qsort : List HostRange → List HostRange} {rs : List HostRange}
    (hlen : (qsort rs).length = rs.length) (free : Nat) (n : Int) :
    sortRanges qsort (Hostlist.ofRanges rs free n) =
      some (Hostlist.ofRanges (qsort rs) free n) := by
  unfold sortRanges
  rw [ofRanges_ranges, Option.map_some]
  congr 1
  refine Hostlist.eq_ofRanges ?_ hlen.symm rfl ?_
  · rw [hlen]
    rfl
  · simp [Hostlist.ofRanges]

/-! ## Distinct names -/

/-- The number of distinct names in a list. -/
def distinct (ns : List (List Char)) : Nat := ns.dedup.length

theorem distinct_congr {ns ms : List (List Char)} (h : ∀ x, x ∈ ns ↔ x ∈ ms) :
    distinct ns = distinct ms := by
  have hperm : ns.dedup.Perm ms.dedup := by
    rw [List.perm_ext_iff_of_nodup (List.nodup_dedup _) (List.nodup_dedup _)]
    intro x
    rw [List.mem_dedup, List.mem_dedup, h]
  exact hperm.length_eq

theorem distinct_of_nodup {ns : List (List Char)} (h : ns.Nodup) : distinct ns = ns.length := by
  rw [distinct, h.dedup]

theorem length_le_distinct {ns ms : List (List Char)} (h : ns.Nodup)
    (hsub : ∀ x ∈ ns, x ∈ ms) : ns.length ≤ distinct ms :=
  (List.subperm_of_subset h fun x hx => List.mem_dedup.mpr (hsub x hx)).length_le

/-- Each range of a list has at most as many hosts as there are distinct names. -/
theorem length_names_le_distinct {r : HostRange} {rs : List HostRange} (h : r ∈ rs) :
    r.names.length ≤ distinct (names rs) :=
  length_le_distinct (names_nodup r) fun _ hx => List.mem_flatMap.mpr ⟨r, h, hx⟩

/-! ## Separated ranges -/

/-- Two ranges share a name. -/
def Shares (a b : HostRange) : Prop := ∃ h ∈ a.names, h ∈ b.names

instance (a b : HostRange) : Decidable (Shares a b) :=
  inferInstanceAs (Decidable (∃ h ∈ _, _))

/-- Two ranges share a name, and their prefixes differ or a zero-padded range of a
higher level than the one and no higher than the other keeps them apart. -/
def Separated (rs : List HostRange) : Prop :=
  ∃ a ∈ rs, ∃ b ∈ rs, Shares a b ∧
    (¬ SamePrefix a b ∨
      ∃ c ∈ rs, SamePrefix a c ∧ c.ZeroPadded ∧ a.level < c.level ∧ c.level ≤ b.level)

instance (rs : List HostRange) : Decidable (Separated rs) :=
  inferInstanceAs (Decidable (∃ a ∈ rs, ∃ b ∈ rs, _ ∧ (_ ∨ ∃ c ∈ rs, _)))

theorem not_separated_self (a : HostRange) (rs : List HostRange) :
    ¬ (¬ SamePrefix a a ∨
      ∃ c ∈ rs, SamePrefix a c ∧ c.ZeroPadded ∧ a.level < c.level ∧ c.level ≤ a.level) := by
  rintro (h | ⟨c, -, -, -, h1, h2⟩)
  · exact h ⟨rfl, rfl⟩
  · omega

theorem not_separated_singleton (a : HostRange) : ¬ Separated [a] := by
  rintro ⟨b, hb, c, hc, -, hsep⟩
  rw [List.mem_singleton.mp hb, List.mem_singleton.mp hc] at hsep
  exact not_separated_self a _ hsep

/-- Ranges with the same place in the order and the same names. -/
def Alike (r s : HostRange) : Prop := SameKey r s ∧ s.names = r.names

theorem Alike.refl (r : HostRange) : Alike r r := ⟨.refl r, rfl⟩

theorem Alike.symm {r s : HostRange} (h : Alike r s) : Alike s r := ⟨h.1.symm, h.2.symm⟩

theorem Kept.alike {r s : HostRange} (h : Kept r s) : Alike r s := ⟨h.1.sameKey, h.1.names⟩

theorem Alike.shares {a a' b b' : HostRange} (ha : Alike a a') (hb : Alike b b') :
    Shares a' b' ↔ Shares a b := by
  unfold Shares
  rw [ha.2, hb.2]

/-- Whether ranges are separated depends on the names and the order alone. -/
theorem Separated.of_alike {rs ss : List HostRange} (hall : ∀ r ∈ rs, ∃ s ∈ ss, Alike r s)
    (h : Separated rs) : Separated ss := by
  obtain ⟨a, ha, b, hb, hshare, hsep⟩ := h
  obtain ⟨a', ha', hka⟩ := hall a ha
  obtain ⟨b', hb', hkb⟩ := hall b hb
  refine ⟨a', ha', b', hb', (hka.shares hkb).mpr hshare, ?_⟩
  rcases hsep with hsep | ⟨c, hc, hsame, hpad, h1, h2⟩
  · exact .inl fun hs => hsep ((hka.1.samePrefix_iff hkb.1).mp hs)
  · obtain ⟨c', hc', hkc⟩ := hall c hc
    refine .inr ⟨c', hc', (hka.1.samePrefix_iff hkc.1).mpr hsame, hkc.1.zeroPadded.mpr hpad, ?_⟩
    rw [hka.1.level, hkb.1.level, hkc.1.level]
    exact ⟨h1, h2⟩

theorem separated_congr {rs ss : List HostRange} (h : List.Forall₂ Alike rs ss) :
    Separated ss ↔ Separated rs := by
  constructor
  · intro hsep
    refine hsep.of_alike fun s hs => ?_
    obtain ⟨i, hi, rfl⟩ := List.getElem_of_mem hs
    have hi' : i < rs.length := by rw [h.length_eq]; exact hi
    exact ⟨rs[i], List.getElem_mem hi', (h.get hi' hi).symm⟩
  · intro hsep
    refine hsep.of_alike fun r hr => ?_
    obtain ⟨i, hi, rfl⟩ := List.getElem_of_mem hr
    have hi' : i < ss.length := by rw [← h.length_eq]; exact hi
    exact ⟨ss[i], List.getElem_mem hi', h.get hi hi'⟩

/-- In order, a padded range above `t` is above `r` too when `r` touches `t`. -/
theorem level_lt_of_padded {t r s : HostRange} (hsort : (t :: r :: [s]).Pairwise Before)
    (ht : Touches t r) (hs : SamePrefix t s) (hpad : s.ZeroPadded) (hlt : t.level < s.level) :
    r.level < s.level := by
  simp only [List.pairwise_cons, List.mem_cons, List.not_mem_nil, or_false] at hsort
  have htr : Before t r := hsort.1 r (.inl rfl)
  have hrs : Before r s := hsort.2.1 s rfl
  have hsame : SamePrefix r s := ht.1.symm.trans hs
  have hle := hrs.level_le hsame
  by_contra hge
  have heq : r.level = s.level := by omega
  have hrpad : ¬ r.ZeroPadded :=
    ((compatible_iff_level (htr.level_le ht.1)).mp ht.2.1).resolve_left (by omega)
  have hlo : r.lo ≤ s.lo :=
    hrs.lo_le hsame ((compatible_iff_level hle).mpr (.inl heq))
  exact not_zeroPadded_of_le heq hlo hrpad hpad

/-- Joining a neighbour that touches leaves the other pairs of a list separated or
not as they were. -/
theorem separated_join {t r c : HostRange} {d : Int} {rs : List HostRange}
    (hj : Joined t r c d) (hsort : (t :: r :: rs).Pairwise Before) (ht : Touches t r) :
    Separated (c :: rs) ↔ Separated (t :: r :: rs) := by
  obtain ⟨htall, hrest⟩ := List.pairwise_cons.mp hsort
  obtain ⟨hrall, -⟩ := List.pairwise_cons.mp hrest
  have hcshare : ∀ s, Shares c s ↔ Shares t s ∨ Shares r s := by
    intro s
    unfold Shares
    simp only [hj.names]
    grind
  have hsharec : ∀ s, Shares s c ↔ Shares s t ∨ Shares s r := by
    intro s
    unfold Shares
    simp only [hj.names]
    grind
  have hkey := hj.key
  have hlevel := hkey.level
  have htr : t.level ≤ r.level := (htall r (by simp)).level_le ht.1
  have hrpad : t.level < r.level → ¬ r.ZeroPadded := fun hlt =>
    ((compatible_iff_level htr).mp ht.2.1).resolve_left (by omega)
  have hrs : ∀ s ∈ rs, SamePrefix t s → r.level ≤ s.level := fun s hs hsame =>
    (hrall s hs).level_le (ht.1.symm.trans hsame)
  have hpadded : ∀ s ∈ rs, SamePrefix t s → s.ZeroPadded → t.level < s.level →
      r.level < s.level := by
    intro s hs
    refine level_lt_of_padded (hsort.sublist ?_) ht
    exact ((List.singleton_sublist.mpr hs).cons_cons r).cons_cons t
  have htsame := ht.1
  have hcsame := hkey.samePrefix
  -- from here every pair, and the range between it, has its place in the other list
  unfold Separated
  simp only [List.mem_cons]
  unfold SamePrefix at *
  constructor
  · rintro ⟨a, ha, b, hb, hshare, hsep⟩
    grind
  · rintro ⟨a, ha, b, hb, hshare, hsep⟩
    grind

/-- Ranges of one prefix that share a name overlap. -/
theorem overlap_of_shares {a b : HostRange} (hs : SamePrefix a b) (ha : a.singlehost = false)
    (h : Shares a b) : b.lo ≤ a.hi := by
  obtain ⟨x, hxa, hxb⟩ := h
  obtain ⟨k, hk1, hk2, rfl⟩ := (mem_names_iff ha).mp hxa
  obtain ⟨m, hm1, hm2, heq⟩ := (mem_names_iff (hs.2 ▸ ha)).mp hxb
  rw [hs.1] at heq
  obtain rfl := padded_inj (List.append_cancel_left heq)
  omega

/-- In order, a range shares names with a later one only if it touches its neighbour or
a padded range keeps the two apart. -/
theorem separated_of_shares {t r s : HostRange} {rs : List HostRange}
    (hsort : (t :: r :: rs).Pairwise Before) (hno : ¬ Touches t r) (hs : s ∈ r :: rs)
    (hshare : Shares t s) : Separated (t :: r :: rs) := by
  obtain ⟨htall, hrest⟩ := List.pairwise_cons.mp hsort
  obtain ⟨hrall, -⟩ := List.pairwise_cons.mp hrest
  have hmem : s ∈ t :: r :: rs := List.mem_cons_of_mem t hs
  refine ⟨t, by simp, s, hmem, hshare, ?_⟩
  by_cases hsame : SamePrefix t s
  · right
    have htr : Before t r := htall r (by simp)
    have hrs : r = s ∨ Before r s := by
      rcases List.mem_cons.mp hs with rfl | hs
      · exact .inl rfl
      · exact .inr (hrall s hs)
    have hsame' : SamePrefix t r := by
      rcases hrs with rfl | hrs
      · exact hsame
      · exact hsame.of_between htr hrs
    have hle := htr.level_le hsame'
    by_contra hcut
    -- neither the neighbour nor `s` itself keeps `t` and `s` apart
    have hcut' : ∀ c ∈ r :: rs, SamePrefix t c → c.level ≤ s.level → t.level < c.level →
        ¬ c.ZeroPadded := fun c hc h1 h2 h3 hpad =>
      hcut ⟨c, List.mem_cons_of_mem t hc, h1, hpad, h3, h2⟩
    have hrs_level : r.level ≤ s.level := by
      rcases hrs with rfl | hrs
      · exact Nat.le_refl _
      · exact hrs.level_le (hsame'.symm.trans hsame)
    have hcompat : Compatible t r := by
      refine (compatible_iff_level hle).mpr ?_
      by_cases heq : t.level = r.level
      · exact .inl heq
      · exact .inr (hcut' r (by simp) hsame' hrs_level (by omega))
    have hsing : t.singlehost = false := by
      cases hb : t.singlehost with
      | true => exact absurd ⟨hsame', hcompat, .inl hb⟩ hno
      | false => rfl
    have hgap : ¬ r.lo ≤ t.hi + 1 := fun h => hno ⟨hsame', hcompat, .inr h⟩
    have hover := overlap_of_shares hsame hsing hshare
    rcases hrs with rfl | hrs
    · omega
    · have hcrs : Compatible r s := by
        refine (compatible_iff_level hrs_level).mpr ?_
        by_cases heq : r.level = s.level
        · exact .inl heq
        · exact .inr (hcut' s hs hsame (Nat.le_refl _) (by omega))
      have hlo := hrs.lo_le (hsame'.symm.trans hsame) hcrs
      omega
  · exact .inl hsame

/-- A range that does not touch its neighbour is a block of its own. -/
theorem separated_skip {t r : HostRange} {rs : List HostRange}
    (hsort : (t :: r :: rs).Pairwise Before) (hno : ¬ Touches t r) :
    Separated (t :: r :: rs) ↔ (∃ s ∈ r :: rs, Shares t s) ∨ Separated (r :: rs) := by
  constructor
  · rintro ⟨a, ha, b, hb, hshare, hsep⟩
    have hlevel : ∀ s ∈ r :: rs, SamePrefix t s → t.level ≤ s.level := fun s hs =>
      ((List.pairwise_cons.mp hsort).1 s hs).level_le
    rcases List.mem_cons.mp ha with hat | har
    · rcases List.mem_cons.mp hb with hbt | hbr
      · rw [hat, hbt] at hsep
        exact absurd hsep (not_separated_self t _)
      · exact .inl ⟨b, hbr, hat ▸ hshare⟩
    · rcases List.mem_cons.mp hb with hbt | hbr
      · obtain ⟨h, h1, h2⟩ := hshare
        exact .inl ⟨a, har, h, hbt ▸ h2, h1⟩
      · refine .inr ⟨a, har, b, hbr, hshare, hsep.imp_right ?_⟩
        rintro ⟨s, hs, hsame, hpad, h1, h2⟩
        rcases List.mem_cons.mp hs with rfl | hs
        · have := hlevel a har hsame.symm
          omega
        · exact ⟨s, hs, hsame, hpad, h1, h2⟩
  · rintro (⟨s, hs, hshare⟩ | hsep)
    · exact separated_of_shares hsort hno hs hshare
    · exact hsep.of_alike fun s hs => ⟨s, List.mem_cons_of_mem t hs, .refl s⟩

/-! ## What is left after joining -/

/-- What the ranges `ss` left of the ranges `rs`, with `d` duplicates counted, have
to do with each other. -/
structure Compacted (rs ss : List HostRange) (d : Int) : Prop where
  pushed : ∀ s ∈ ss, s.Pushed
  keys : ∀ s ∈ ss, ∃ r ∈ rs, SameKey r s
  sorted : ss.Pairwise Before
  same : ∀ h, h ∈ names ss ↔ h ∈ names rs
  count : d + (names ss).length = (names rs).length
  nodup : (names ss).Nodup ↔ ¬ Separated rs

theorem distinct_mono {ns ms : List (List Char)} (h : ∀ x ∈ ns, x ∈ ms) :
    distinct ns ≤ distinct ms :=
  length_le_distinct (List.nodup_dedup ns) fun x hx => h x (List.mem_dedup.mp hx)

theorem mem_names_cons {r : HostRange} {rs : List HostRange} {h : List Char} :
    h ∈ names (r :: rs) ↔ h ∈ r.names ∨ h ∈ names rs := by
  rw [names_cons, List.mem_append]

theorem mem_names {rs : List HostRange} {h : List Char} :
    h ∈ names rs ↔ ∃ r ∈ rs, h ∈ r.names := List.mem_flatMap

/-- Changing the keys of no range leaves a list in order. -/
theorem pairwise_cons_of_key {t c : HostRange} {rs ss : List HostRange} (hc : SameKey t c)
    (hall : ∀ r ∈ rs, Before t r) (hkeys : ∀ s ∈ ss, ∃ r ∈ rs, SameKey r s)
    (hss : ss.Pairwise Before) : (c :: ss).Pairwise Before := by
  refine List.pairwise_cons.mpr ⟨fun s hs => ?_, hss⟩
  obtain ⟨r, hr, hkey⟩ := hkeys s hs
  exact (hc.before hkey).mpr (hall r hr)

/-- The first two ranges of a list become one. -/
theorem Compacted.join {t r c : HostRange} {rs ss : List HostRange} {d n : Int}
    (hsort : (t :: r :: rs).Pairwise Before) (htouch : Touches t r) (hc : Joined t r c d)
    (h : Compacted (c :: rs) ss n) : Compacted (t :: r :: rs) ss (d + n) := by
  refine ⟨h.pushed, fun s hs => ?_, h.sorted, fun x => ?_, ?_,
    h.nodup.trans (not_congr (separated_join hc hsort htouch))⟩
  · obtain ⟨u, hu, hkey⟩ := h.keys s hs
    rcases List.mem_cons.mp hu with rfl | hu
    · exact ⟨t, by simp, hc.key.trans hkey⟩
    · exact ⟨u, by simp [hu], hkey⟩
  · rw [h.same, mem_names_cons, mem_names_cons, mem_names_cons, hc.names, or_assoc]
  · have h1 := h.count
    have h2 := hc.count
    simp only [names_cons, List.length_append] at h1 ⊢
    push_cast at h1 ⊢
    omega

/-- The first range of a list is a block of its own. -/
theorem Compacted.skip {t r t' r' : HostRange} {rs ss : List HostRange} {n : Int}
    (ht : t.Pushed) (hsort : (t :: r :: rs).Pairwise Before) (htouch : ¬ Touches t r)
    (hkt : Kept t t') (hkr : Kept r r') (h : Compacted (r' :: rs) ss n) :
    Compacted (t :: r :: rs) (t' :: ss) n := by
  have hrnames : names (r' :: rs) = names (r :: rs) := by
    rw [names_cons, names_cons, hkr.alike.2]
  have hkeys : ∀ s ∈ ss, ∃ u ∈ r :: rs, SameKey u s := by
    intro s hs
    obtain ⟨u, hu, hkey⟩ := h.keys s hs
    rcases List.mem_cons.mp hu with rfl | hu
    · exact ⟨r, by simp, hkr.alike.1.trans hkey⟩
    · exact ⟨u, by simp [hu], hkey⟩
  refine ⟨fun s hs => ?_, fun s hs => ?_, ?_, fun x => ?_, ?_, ?_⟩
  · rcases List.mem_cons.mp hs with rfl | hs
    · exact hkt.pushed ht
    · exact h.pushed s hs
  · rcases List.mem_cons.mp hs with rfl | hs
    · exact ⟨t, by simp, hkt.alike.1⟩
    · obtain ⟨u, hu, hkey⟩ := hkeys s hs
      exact ⟨u, List.mem_cons_of_mem t hu, hkey⟩
  · exact pairwise_cons_of_key hkt.alike.1 (List.pairwise_cons.mp hsort).1 hkeys h.sorted
  · rw [mem_names_cons, h.same, hrnames, hkt.alike.2, ← mem_names_cons]
  · have h1 := h.count
    rw [hrnames] at h1
    rw [names_cons, names_cons t, hkt.alike.2, List.length_append, List.length_append]
    push_cast
    omega
  · have hsep : Separated (r' :: rs) ↔ Separated (r :: rs) :=
      separated_congr (.cons hkr.alike (List.forall₂_same.mpr fun s _ => .refl s))
    have hdisj : (∀ x ∈ t.names, ∀ y ∈ names ss, x ≠ y) ↔ ¬ ∃ s ∈ r :: rs, Shares t s := by
      constructor
      · rintro h' ⟨s, hs, x, hx, hxs⟩
        refine h' x hx x ?_ rfl
        rw [h.same, hrnames]
        exact mem_names.mpr ⟨s, hs, hxs⟩
      · rintro h' x hx y hy rfl
        rw [h.same, hrnames] at hy
        obtain ⟨s, hs, hxs⟩ := mem_names.mp hy
        exact h' ⟨s, hs, x, hx, hxs⟩
    rw [names_cons, hkt.alike.2, List.nodup_append, h.nodup, hsep,
      separated_skip hsort htouch, hdisj, not_or]
    exact ⟨fun h => ⟨h.2.2, h.2.1⟩, fun h => ⟨names_nodup t, h.2, h.1⟩⟩

theorem forall_pushed_cons {t c : HostRange} {rs : List HostRange}
    (hp : ∀ s ∈ t :: rs, s.Pushed) (hc : c.Pushed) : ∀ s ∈ c :: rs, s.Pushed := by
  intro s hs
  rcases List.mem_cons.mp hs with rfl | hs
  · exact hc
  · exact hp s (List.mem_cons_of_mem t hs)

/-- Joining along a list in order. -/
theorem joinAll_compacted {rs : List HostRange} :
    ∀ {t : HostRange}, (∀ s ∈ t :: rs, s.Pushed) → (t :: rs).Pairwise Before →
      distinct (names (t :: rs)) < 2147483648 →
      Compacted (t :: rs) (joinAll t rs) (dups t rs) := by
  induction rs with
  | nil =>
    intro t hp hsort _
    have hone : (names [t]).Nodup := by
      rw [names_cons, names_nil, List.append_nil]
      exact names_nodup t
    exact ⟨hp, fun s hs => ⟨s, hs, .refl s⟩, hsort, fun h => Iff.rfl, Int.zero_add _,
      iff_of_true hone (not_separated_singleton t)⟩
  | cons r rs ih =>
    intro t hp hsort hfit
    have ht := hp t (by simp)
    have hr := hp r (by simp)
    have hprs : ∀ s ∈ r :: rs, s.Pushed := fun s hs => hp s (List.mem_cons_of_mem t hs)
    obtain ⟨htall, hrest⟩ := List.pairwise_cons.mp hsort
    obtain ⟨hrall, hrssort⟩ := List.pairwise_cons.mp hrest
    by_cases htouch : Touches t r
    · have hlt : t.names.length < 2147483648 :=
        Nat.lt_of_le_of_lt (length_names_le_distinct (by simp)) hfit
      have hlr : r.names.length < 2147483648 :=
        Nat.lt_of_le_of_lt (length_names_le_distinct (by simp)) hfit
      obtain ⟨d, c, r', hjoin, hd, hc⟩ :=
        hostrangeJoin_of_touches ht hr (htall r (by simp)) htouch hlt hlr
      have hnames : ∀ h, h ∈ names (c :: rs) ↔ h ∈ names (t :: r :: rs) := by
        intro h
        rw [mem_names_cons, mem_names_cons, mem_names_cons, hc.names, or_assoc]
      have hcsort : (c :: rs).Pairwise Before :=
        pairwise_cons_of_key hc.key (fun s hs => htall s (by simp [hs]))
          (fun s hs => ⟨s, hs, .refl s⟩) hrssort
      have hih := ih (forall_pushed_cons hprs hc.pushed) hcsort
        (by rw [distinct_congr hnames]; exact hfit)
      have hall : joinAll t (r :: rs) = joinAll c rs := by
        simp only [joinAll, hjoin]
        rw [if_neg (by omega)]
      have hdups : dups t (r :: rs) = d + dups c rs := by
        simp only [dups, hjoin]
        rw [if_neg (by omega)]
      rw [hall, hdups]
      exact hih.join hsort htouch hc
    · obtain ⟨t', r', hjoin, hkt, hkr⟩ := hostrangeJoin_of_not ht hr htouch
      have hrsort : (r' :: rs).Pairwise Before :=
        pairwise_cons_of_key hkr.alike.1 hrall (fun s hs => ⟨s, hs, .refl s⟩) hrssort
      have hsub : distinct (names (r' :: rs)) ≤ distinct (names (t :: r :: rs)) := by
        rw [names_cons r', hkr.alike.2, ← names_cons]
        exact distinct_mono fun h hh => mem_names_cons.mpr (.inr hh)
      have hih := ih (forall_pushed_cons hprs (hkr.pushed hr)) hrsort
        (Nat.lt_of_le_of_lt hsub hfit)
      have hall : joinAll t (r :: rs) = t' :: joinAll r' rs := by
        simp only [joinAll, hjoin]
        rw [if_pos (by omega)]
      have hdups : dups t (r :: rs) = dups r' rs := by
        simp only [dups, hjoin]
        rw [if_pos (by omega)]
      rw [hall, hdups]
      exact hih.skip ht hsort htouch hkt hkr

/-! ## `hostlist_uniq` -/

/-- `ss` and the host count `n` are the distinct names of `rs`, each once. -/
structure IsUniq (rs ss : List HostRange) (n : Int) : Prop where
  once : (names ss).Nodup
  same : ∀ h, h ∈ names ss ↔ h ∈ names rs
  count : n = distinct (names rs)

/-- When `hostlist_uniq` keeps each name once: no range was wrapped while it was
built, the comparison is an order, no ranges are separated, and an `int` can
count the names. -/
structure UniqOk (rs : List HostRange) : Prop where
  ordered : ∀ r ∈ rs, r.Ordered
  near : ∀ a ∈ rs, ∀ b ∈ rs, Near a b
  joined : ¬ Separated rs
  fits : distinct (names rs) < 2147483648

/-- Sorting leaves ranges that were kept, in another order. -/
theorem qsort_kept {qsort : List HostRange → List HostRange}
    (hq : Sorts hostrangeCmp Kept HostRange.Wf qsort) {rs : List HostRange}
    (hwf : ∀ r ∈ rs, r.Wf) :
    (qsort rs).length = rs.length ∧ (∀ s ∈ qsort rs, ∃ r ∈ rs, Kept r s) ∧
      (names (qsort rs)).Perm (names rs) ∧ (Separated (qsort rs) ↔ Separated rs) := by
  obtain ⟨ts, hperm, hts⟩ := hq.rearranges rs hwf
  have hnames : names (qsort rs) = names ts := by
    generalize qsort rs = ss at hts
    clear hperm
    induction hts with
    | nil => rfl
    | cons hk _ ih => rw [names_cons, names_cons, ih, hk.alike.2]
  have hsep : Separated ts ↔ Separated rs :=
    ⟨Separated.of_alike fun s hs => ⟨s, hperm.mem_iff.mp hs, .refl s⟩,
      Separated.of_alike fun s hs => ⟨s, hperm.mem_iff.mpr hs, .refl s⟩⟩
  refine ⟨hts.length_eq.symm.trans hperm.length_eq, fun s hs => ?_, ?_, ?_⟩
  · obtain ⟨i, hi, rfl⟩ := List.getElem_of_mem hs
    have hi' : i < ts.length := by rw [hts.length_eq]; exact hi
    exact ⟨ts[i], hperm.mem_iff.mp (List.getElem_mem hi'), hts.get hi' hi⟩
  · rw [hnames]
    exact hperm.flatMap_right _
  · exact (separated_congr (hts.imp fun _ _ h => h.alike)).trans hsep

/-- Ranges whose numbers lie near are in order after sorting. -/
theorem qsort_sorted {qsort : List HostRange → List HostRange}
    (hq : Sorts hostrangeCmp Kept HostRange.Wf qsort) {rs : List HostRange}
    (hwf : ∀ r ∈ rs, r.Wf) (hnear : ∀ a ∈ rs, ∀ b ∈ rs, Near a b) :
    (qsort rs).Pairwise Before := by
  obtain ⟨-, hback, -, -⟩ := qsort_kept hq hwf
  have hsorted := hq.sorted rs hwf ⟨Before, hostrangeCmp_answers hnear⟩
  refine hsorted.imp_of_mem fun {a b} ha hb hle => ?_
  obtain ⟨r, hr, hkr⟩ := hback a ha
  obtain ⟨s, hs, hks⟩ := hback b hb
  have hnear' := (hkr.alike.1.near hks.alike.1).mpr (hnear r hr s hs)
  exact (hostrangeCmp_le_iff hnear').mp hle

/-- The hosts of ordered ranges that an `int` can count one by one. -/
theorem hosts_eq_length {rs : List HostRange} (hord : ∀ r ∈ rs, r.Ordered)
    (hlen : ∀ r ∈ rs, r.names.length < 2147483648) : hosts rs = (names rs).length := by
  induction rs with
  | nil => rfl
  | cons r rs ih =>
    rw [hosts_cons, names_cons, List.length_append,
      hostrangeCount_eq_length (hord r (by simp)) (hlen r (by simp)),
      ih (fun s hs => hord s (by simp [hs])) fun s hs => hlen s (by simp [hs])]

/-- The ranges `hostlist_uniq` leaves of a list. -/
def uniqRanges (qsort : List HostRange → List HostRange) (rs : List HostRange) :
    List HostRange :=
  if rs.length ≤ 1 then rs
  else
    match qsort rs with
    | [] => []
    | t :: ts => joinAll t ts

/-- The duplicates it counts. -/
def uniqDups (qsort : List HostRange → List HostRange) (rs : List HostRange) : Int :=
  if rs.length ≤ 1 then 0
  else
    match qsort rs with
    | [] => 0
    | t :: ts => dups t ts

/-- `hostlist_uniq` as a function of the ranges. -/
theorem Holds.uniq {qsort : List HostRange → List HostRange}
    (hq : Sorts hostrangeCmp Kept HostRange.Wf qsort) {hl : Hostlist} {rs : List HostRange}
    (h : Holds hl rs) :
    ∃ free, hostlistUniq qsort hl =
      some (Hostlist.ofRanges (uniqRanges qsort rs) free
        (int32 (hosts rs - uniqDups qsort rs))) := by
  obtain ⟨⟨free, rfl⟩, hok⟩ := h
  unfold hostlistUniq uniqRanges uniqDups
  rw [ofRanges_nranges]
  by_cases hone : rs.length ≤ 1
  · rw [if_pos hone, if_pos hone, if_pos hone, Int.sub_zero]
    exact ⟨free, rfl⟩
  · obtain ⟨hlen, -, -, -⟩ := qsort_kept hq fun r hr => (hok r hr).toWf
    rw [if_neg hone, if_neg hone, if_neg hone, sortRanges_ofRanges hlen, Option.bind_eq_bind,
      Option.bind_some, ofRanges_nranges]
    cases hs : qsort rs with
    | nil =>
      rw [hs, List.length_nil] at hlen
      omega
    | cons t ts =>
      obtain ⟨free', hloop⟩ := uniqLoop_ofRanges ts [] t free (t :: ts).length
        (int32 (hosts rs)) (int32_int32 _) (by simp)
      rw [int32_int32_sub] at hloop
      exact ⟨free', hloop⟩

/-- The ranges left of a list, when the comparison is an order and no name is too
many. -/
theorem uniqRanges_compacted {qsort : List HostRange → List HostRange}
    (hq : Sorts hostrangeCmp Kept HostRange.Wf qsort) {rs : List HostRange}
    (hp : ∀ r ∈ rs, r.Pushed) (hnear : ∀ a ∈ rs, ∀ b ∈ rs, Near a b)
    (hfits : distinct (names rs) < 2147483648) :
    (∀ s ∈ uniqRanges qsort rs, s.Pushed) ∧ (uniqRanges qsort rs).Pairwise Before ∧
      (∀ h, h ∈ names (uniqRanges qsort rs) ↔ h ∈ names rs) ∧
      uniqDups qsort rs + (names (uniqRanges qsort rs)).length = (names rs).length ∧
      ((names (uniqRanges qsort rs)).Nodup ↔ ¬ Separated rs) := by
  have hwf : ∀ r ∈ rs, r.Wf := fun r hr => (hp r hr).toWf
  obtain ⟨hlen, hback, hperm, hsep⟩ := qsort_kept hq hwf
  have hsort := qsort_sorted hq hwf hnear
  unfold uniqRanges uniqDups
  by_cases hone : rs.length ≤ 1
  · rw [if_pos hone, if_pos hone, Int.zero_add]
    cases rs with
    | nil =>
      refine ⟨hp, .nil, fun h => Iff.rfl, rfl, iff_of_true List.nodup_nil ?_⟩
      rintro ⟨a, ha, -⟩
      exact absurd ha List.not_mem_nil
    | cons r rs =>
      obtain rfl : rs = [] := List.length_eq_zero_iff.mp (by simpa using hone)
      have hnodup : (names [r]).Nodup := by
        rw [names_cons, names_nil, List.append_nil]
        exact names_nodup r
      exact ⟨hp, List.pairwise_singleton _ r, fun h => Iff.rfl, rfl,
        iff_of_true hnodup (not_separated_singleton r)⟩
  · rw [if_neg hone, if_neg hone]
    cases hs : qsort rs with
    | nil =>
      rw [hs, List.length_nil] at hlen
      omega
    | cons t ts =>
      rw [hs] at hback hperm hsep hsort
      have hsame : ∀ h, h ∈ names (t :: ts) ↔ h ∈ names rs := fun h => hperm.mem_iff
      have hc := @joinAll_compacted ts t
        (fun s hmem => by
          obtain ⟨r, hr, hk⟩ := hback s hmem
          exact hk.pushed (hp r hr))
        hsort (by rw [distinct_congr hsame]; exact hfits)
      refine ⟨hc.pushed, hc.sorted, fun h => (hc.same h).trans (hsame h), ?_,
        hc.nodup.trans (not_congr hsep)⟩
      rw [hc.count, hperm.length_eq]

/-- On every list built from strings `hostlist_uniq` returns. It leaves every name
once and counts them whenever `UniqOk` holds of the ranges; and only then, when no
range was wrapped and the comparison is an order. -/
theorem hostlistUniq_isUniq {qsort : List HostRange → List HostRange}
    (hq : Sorts hostrangeCmp Kept HostRange.Wf qsort) {hl : Hostlist} (hb : Built hl) :
    ∃ rs hl' ss, hl.ranges = some rs ∧ hostlistUniq qsort hl = some hl' ∧
      hl'.ranges = some ss ∧ (UniqOk rs → IsUniq rs ss hl'.nhosts) ∧
      ((∀ r ∈ rs, r.Ordered) → (∀ a ∈ rs, ∀ b ∈ rs, Near a b) →
        IsUniq rs ss hl'.nhosts → UniqOk rs) := by
  obtain ⟨rs, hrs⟩ := hb.holds
  obtain ⟨free, huniq⟩ := hrs.uniq hq
  refine ⟨rs, _, _, hrs.ranges, huniq, ofRanges_ranges _ _ _, fun hok => ?_,
    fun hord hnear hun => ?_⟩
  · have hp : ∀ r ∈ rs, r.Pushed := fun r hr => ⟨hrs.ok r hr, hok.ordered r hr⟩
    obtain ⟨-, -, hsame, hcount, hnodup⟩ := uniqRanges_compacted hq hp hok.near hok.fits
    have honce := hnodup.mpr hok.joined
    have hdist := (distinct_congr hsame).symm.trans (distinct_of_nodup honce)
    refine ⟨honce, hsame, ?_⟩
    have hlen : ∀ r ∈ rs, r.names.length < 2147483648 := fun r hr =>
      Nat.lt_of_le_of_lt (length_names_le_distinct hr) hok.fits
    have hfits := hok.fits
    rw [ofRanges_nhosts, hosts_eq_length hok.ordered hlen, int32_of_range (by omega) (by omega)]
    omega
  · have hfits : distinct (names rs) < 2147483648 := by
      have hcount := hun.count
      rw [ofRanges_nhosts] at hcount
      have hlt := int32_lt (hosts rs - uniqDups qsort rs)
      rw [hcount] at hlt
      exact_mod_cast hlt
    have hp : ∀ r ∈ rs, r.Pushed := fun r hr => ⟨hrs.ok r hr, hord r hr⟩
    obtain ⟨-, -, -, -, hnodup⟩ := uniqRanges_compacted hq hp hnear hfits
    exact ⟨hord, hnear, hnodup.mp hun.once, hfits⟩

theorem hostlistUniq_isUniq_overlap :
    ∃ hl hl' ss, hostlistCreate "a[2-4],b,a[1-3]".toList = .ok hl ∧
      hostlistUniq (insertionSort hostrangeCmp) hl = some hl' ∧ hl'.ranges = some ss ∧
      (names ss).Nodup ∧ hl'.nhosts = 5 := by
  have hcreate : hostlistCreate "a[2-4],b,a[1-3]".toList =
      .ok (Hostlist.ofRanges [hostrangeCreate ['a'] 2 4 1, hostrangeCreateSingle ['b'],
        hostrangeCreate ['a'] 1 3 1] 13 7) := rfl
  obtain ⟨rs, hl', ss, hrs, huniq, hss, hok, -⟩ :=
    hostlistUniq_isUniq insertionSort_hostrange (.create hcreate)
  rw [ofRanges_ranges] at hrs
  obtain rfl := Option.some.inj hrs
  have hun := hok ⟨by decide, by decide, by decide, Nat.lt_of_le_of_lt (m := 7) (by decide)
    (by omega)⟩
  exact ⟨_, hl', ss, hcreate, huniq, hss, hun.once, hun.count.trans (by decide)⟩

/-- The second of two ranges that share names is padded to a higher level. -/
theorem hostlistUniq_separated :
    ∃ hl hl' ss, hostlistCreate "a[8-12],a[08-12]".toList = .ok hl ∧
      hostlistUniq (insertionSort hostrangeCmp) hl = some hl' ∧ hl'.ranges = some ss ∧
      ¬ (names ss).Nodup := by
  have hcreate : hostlistCreate "a[8-12],a[08-12]".toList =
      .ok (Hostlist.ofRanges [hostrangeCreate ['a'] 8 12 1, hostrangeCreate ['a'] 8 12 2] 14
        10) := rfl
  have huniq : hostlistUniq (insertionSort hostrangeCmp) (Hostlist.ofRanges
      [hostrangeCreate ['a'] 8 12 1, hostrangeCreate ['a'] 8 12 2] 14 10) =
      some (Hostlist.ofRanges
        [hostrangeCreate ['a'] 8 12 1, hostrangeCreate ['a'] 8 12 2] 14 10) := by decide
  exact ⟨_, _, _, hcreate, huniq, ofRanges_ranges _ _ _, by decide⟩

end Slurm.Hosts
