import SlurmLite.Hostlist.Blocks

/-!
# The scan over sorted ranges

After each split `hostlist_coalesce` scans from the last range again. On sorted
ranges the scan is a derivation (`Scans`), one rule for the end, one for a split
and one for a split it never gets over.

* **Termination** (`State.scans`): a split leaves shorter ranges, or moves what
  is long towards the end.
* **Correctness** (`Scans.state`): what is left is sorted, no neighbours cross,
  and each block has its numbers as often as before.
* **The code** (`Scans.returns`, `Scans.not_returns`): the loop returns what the
  derivation ends in. It does exactly on tame ranges (`Scans.tame`).
-/

namespace Slurm.Hosts

open Base.Text Base.CLib Base.Sort

/-- The scan of sorted ranges, to the ranges it leaves or to `none`. -/
inductive Scans (ps : List HostRange) : List HostRange → Option (List HostRange) → Prop
  | settled {rs : List HostRange} : Settled rs → Scans ps rs (some rs)
  | stuck {as bs : List HostRange} {a b : HostRange} :
      Crosses a b → Settled (b :: bs) → ¬ Clear ps a b → Scans ps (as ++ a :: b :: bs) none
  | split {as bs : List HostRange} {a b : HostRange} {r : Option (List HostRange)} :
      Crosses a b → Settled (b :: bs) → Clear ps a b →
      Scans ps (as ++ splitRanges a b ++ bs) r → Scans ps (as ++ a :: b :: bs) r

/-! ## Termination -/

/-- Where neighbours cross, the scan comes to the last of them. -/
theorem settled_or_crosses (rs : List HostRange) :
    Settled rs ∨ ∃ as a b bs, rs = as ++ a :: b :: bs ∧ Crosses a b ∧ Settled (b :: bs) := by
  induction rs with
  | nil => exact .inl .nil
  | cons r rs ih =>
    rcases ih with hset | ⟨as, a, b, bs, rfl, hc, hset⟩
    · cases rs with
      | nil => exact .inl (.singleton r)
      | cons b bs =>
        by_cases hc : Crosses r b
        · exact .inr ⟨[], r, b, bs, rfl, hc, hset⟩
        · exact .inl (.cons_cons hc hset)
    · exact .inr ⟨r :: as, a, b, bs, rfl, hc, hset⟩

/-- The length of a range beyond its first host. -/
def HostRange.span (r : HostRange) : Nat := r.hi - r.lo

/-- The lengths of a list of ranges. -/
def spans (rs : List HostRange) : Nat := (rs.map HostRange.span).sum

/-- The lengths, each counted with the ranges from there on. -/
def weight : List HostRange → Nat
  | [] => 0
  | r :: rs => r.span * (rs.length + 1) + weight rs

@[simp] theorem spans_nil : spans [] = 0 := rfl

@[simp] theorem spans_cons (r : HostRange) (rs : List HostRange) :
    spans (r :: rs) = r.span + spans rs := rfl

@[simp] theorem spans_append (rs ss : List HostRange) : spans (rs ++ ss) = spans rs + spans ss := by
  simp [spans]

theorem weight_append_lt {xs ys : List HostRange} (hlen : xs.length = ys.length)
    (h : weight xs < weight ys) (as : List HostRange) : weight (as ++ xs) < weight (as ++ ys) := by
  induction as with
  | nil => exact h
  | cons a as ih =>
    rw [List.cons_append, List.cons_append, weight, weight, List.length_append,
      List.length_append, hlen]
    omega

theorem spans_midParts (a b : HostRange) : spans (midParts a b) = 0 := by
  unfold spans
  rw [List.sum_eq_zero_iff_forall_eq_nat]
  intro k hk
  obtain ⟨p, hp, rfl⟩ := List.mem_map.mp hk
  obtain ⟨x, -, -, rfl⟩ := mem_midParts hp
  exact Nat.sub_self x

/-- A split leaves shorter ranges, or two of the same lengths in all whose longer
one stands behind. -/
theorem split_lt {a b : HostRange} (h : Cut a b) (as bs : List HostRange) :
    spans (as ++ splitRanges a b ++ bs) < spans (as ++ a :: b :: bs) ∨
      spans (as ++ splitRanges a b ++ bs) = spans (as ++ a :: b :: bs) ∧
        weight (as ++ splitRanges a b ++ bs) < weight (as ++ a :: b :: bs) := by
  have hx := h.lo_lt
  have hlo := h.lo_le
  have hb := h.upper_le
  have hlow : (lowPart a b).span = b.lo - a.lo := rfl
  have hhigh : (highPart a b).span = max a.hi b.hi - min a.hi b.hi := rfl
  have ha : a.span = a.hi - a.lo := rfl
  have hbs : b.span = b.hi - b.lo := rfl
  by_cases hmin : b.lo < min a.hi b.hi
  · left
    rw [splitRanges_eq]
    simp only [spans_append, spans_cons, spans_nil, spans_midParts, hlow, hhigh, ha, hbs]
    omega
  · -- the upper range is one host, and nothing lies between the two parts
    have heq : min a.hi b.hi = b.lo := by omega
    have hmid : midParts a b = [] := by
      rw [midParts, heq, sharedNumbers, Nat.add_sub_cancel_left]
      simp
    have hparts : splitRanges a b = [lowPart a b, highPart a b] := by
      rw [splitRanges_eq, hmid]
      rfl
    right
    rw [hparts, List.append_assoc]
    refine ⟨?_, weight_append_lt (by simp) ?_ as⟩
    · simp only [spans_append, spans_cons, spans_nil, hlow, hhigh, ha, hbs]
      omega
    · obtain ⟨d, hd⟩ : ∃ d, d = b.lo - a.lo := ⟨_, rfl⟩
      obtain ⟨e, he⟩ : ∃ e, e = a.hi - b.lo := ⟨_, rfl⟩
      have hlow' : (lowPart a b).span = d := hd.symm
      have hhigh' : (highPart a b).span = e := by omega
      have ha' : a.span = d + e := by omega
      have hbs' : b.span = 0 := by omega
      simp only [List.cons_append, List.nil_append, weight, List.length_cons, hlow', hhigh', ha',
        hbs', Nat.add_mul, Nat.mul_add]
      omega

/-- The scan of sorted ranges ends, or comes to a split it never gets over. -/
theorem State.scans {ps : List HostRange} (rs : List HostRange) (h : State ps rs) :
    ∃ r, Scans ps rs r := by
  rcases settled_or_crosses rs with hset | ⟨as, a, b, bs, heq, hc, hset⟩
  · exact ⟨some rs, .settled hset⟩
  · have hst : State ps (as ++ a :: b :: bs) := heq ▸ h
    by_cases hclear : Clear ps a b
    · obtain ⟨r, hr⟩ := State.scans (as ++ splitRanges a b ++ bs)
        (hst.split (hst.cut hc) hclear hset)
      exact ⟨r, heq ▸ .split hc hset hclear hr⟩
    · exact ⟨none, heq ▸ .stuck hc hset hclear⟩
termination_by (spans rs, weight rs)
decreasing_by
  rw [heq]
  rcases split_lt (hst.cut hc) as bs with hlt | ⟨hsame, hlt⟩
  · exact .left _ _ hlt
  · rw [hsame]
    exact .right _ hlt

/-! ## Correctness -/

/-- The numbers a range adds to the block of `g`. -/
def numbersIn (ps : List HostRange) (g r : HostRange) : List Nat :=
  if SameBlock ps g r then r.numbers else []

/-- The numbers of the block of `g`, each as often as it is named. -/
def blockNumbers (ps : List HostRange) (g : HostRange) (rs : List HostRange) : List Nat :=
  rs.flatMap (numbersIn ps g)

section

variable {ps as bs rs : List HostRange} {a b g : HostRange}

theorem blockNumbers_append (rs ss : List HostRange) :
    blockNumbers ps g (rs ++ ss) = blockNumbers ps g rs ++ blockNumbers ps g ss :=
  List.flatMap_append

theorem blockNumbers_cons (r : HostRange) (rs : List HostRange) :
    blockNumbers ps g (r :: rs) = numbersIn ps g r ++ blockNumbers ps g rs := rfl

/-- Ranges of one block are all of that of `g` or none is. -/
theorem blockNumbers_of_sameBlock (h : ∀ r ∈ rs, SameBlock ps a r) :
    blockNumbers ps g rs = if SameBlock ps g a then rs.flatMap HostRange.numbers else [] := by
  have heach : ∀ r ∈ rs, (SameBlock ps g r ↔ SameBlock ps g a) := fun r hr =>
    ⟨fun hg => hg.trans (h r hr).symm, fun hg => hg.trans (h r hr)⟩
  unfold blockNumbers
  by_cases hga : SameBlock ps g a
  · rw [if_pos hga]
    exact List.flatMap_congr fun r hr => if_pos ((heach r hr).mpr hga)
  · rw [if_neg hga, List.flatMap_eq_nil_iff]
    exact fun r hr => if_neg fun hg => hga ((heach r hr).mp hg)

theorem Cut.names_perm (h : Cut a b) :
    (names (as ++ splitRanges a b ++ bs)).Perm (names (as ++ a :: b :: bs)) := by
  have hparts := splitRanges_perm h.crosses h.lo_le h.upper_le
  rw [names_append, names_append, names_append, names_cons, names_cons, ← List.append_assoc a.names,
    ← List.append_assoc (names as)]
  exact (hparts.append_left _).append_right _

theorem Cut.blockNumbers_perm (h : Cut a b) (hblock : SameBlock ps a b) (hc : Clear ps a b) :
    (blockNumbers ps g (as ++ splitRanges a b ++ bs)).Perm
      (blockNumbers ps g (as ++ a :: b :: bs)) := by
  have hsplit : as ++ a :: b :: bs = as ++ [a, b] ++ bs := by simp
  have hpair : ∀ r ∈ [a, b], SameBlock ps a r := by
    intro r hr
    simp only [List.mem_cons, List.not_mem_nil, or_false] at hr
    rcases hr with rfl | rfl
    · exact .refl ps r
    · exact hblock
  have hparts : (blockNumbers ps g (splitRanges a b)).Perm (blockNumbers ps g [a, b]) := by
    rw [blockNumbers_of_sameBlock fun r hr => h.sameBlock_part hc hr,
      blockNumbers_of_sameBlock hpair]
    split
    · simpa using splitRanges_numbers h.lo_le h.lo_lt h.upper_le
    · exact .refl _
  rw [hsplit]
  simp only [blockNumbers_append]
  exact (hparts.append_left _).append_right _

end

/-- What the scan keeps of sorted ranges. -/
structure Settles (ps rs ss : List HostRange) : Prop where
  state : State ps ss
  settled : Settled ss
  names : (names ss).Perm (Slurm.Hosts.names rs)
  numbers : ∀ g, (blockNumbers ps g ss).Perm (blockNumbers ps g rs)

/-- The scan leaves sorted ranges none of which cross, with the names and the numbers
of each block. -/
theorem Scans.settles {ps rs ss : List HostRange} (h : Scans ps rs (some ss))
    (hst : State ps rs) : Settles ps rs ss := by
  generalize hr : some ss = r at h
  induction h with
  | settled hset =>
    obtain rfl := Option.some.inj hr
    exact ⟨hst, hset, .refl _, fun _ => .refl _⟩
  | stuck => cases hr
  | @split as bs a b r hc hset hclear _ ih =>
    have hcut := hst.cut hc
    have hblock := hst.sameBlock hc.2.1 hc.2.2.2
    have hrest := ih (hst.split hcut hclear hset) hr
    exact ⟨hrest.state, hrest.settled, hrest.names.trans hcut.names_perm,
      fun g => (hrest.numbers g).trans (hcut.blockNumbers_perm hblock hclear)⟩

/-- The earlier of two ranges of a block ends where the later one starts, or before. -/
def InLine (ps : List HostRange) (a c : HostRange) : Prop :=
  a.singlehost = false → SameBlock ps a c → a.hi ≤ c.lo

/-- Sorted ranges, each in line with all later ones. -/
structure Lined (ps rs : List HostRange) : Prop extends State ps rs where
  inLine : rs.Pairwise (InLine ps)

/-- Settled ranges are in line. -/
theorem Settled.inLine {ps rs : List HostRange} (h : Settled rs) (hp : ∀ r ∈ rs, r.Pushed)
    (hsort : rs.Pairwise Before)
    (hlev : ∀ d ∈ rs, d.ZeroPadded → ∃ c ∈ ps, SamePrefix d c ∧ c.ZeroPadded ∧
      c.level = d.level) : rs.Pairwise (InLine ps) := by
  induction rs with
  | nil => exact .nil
  | cons a bs ih =>
    refine List.pairwise_cons.mpr ⟨fun c hc hs hblock => ?_, ?_⟩
    · exact hi_le_of_settled hp hsort hlev h hs hc hblock
    · exact ih h.tail (fun r hr => hp r (by simp [hr])) (List.pairwise_cons.mp hsort).2
        fun d hd => hlev d (by simp [hd])

theorem State.lined {ps rs : List HostRange} (h : State ps rs) (hset : Settled rs) :
    Lined ps rs :=
  ⟨h, hset.inLine h.pushed h.sorted h.levels.bwd⟩

/-- Ranges in line are tame. -/
theorem Lined.tame {ps rs : List HostRange} (h : Lined ps rs) : rs.Pairwise (Tame ps) := by
  refine h.inLine.imp fun {a c} hline hs hblock => ?_
  have hend := hline hs hblock
  refine ⟨fun d hd hsame hpad hlt => ?_, fun _ hlt => by omega⟩
  -- the numbers up to the start of `c` have no more digits than `c` has
  have hcd := (hblock.2 d hd hsame hpad).mp hlt
  have hmono := @ndigits_mono (min a.hi c.hi) c.lo (by omega)
  have hle : ndigits c.lo ≤ c.level := Nat.le_max_right _ _
  omega

/-- The scan ends exactly on tame ranges. -/
theorem Scans.tame {ps rs : List HostRange} {r : Option (List HostRange)} (h : Scans ps rs r)
    (hst : State ps rs) : r.isSome ↔ rs.Pairwise (Tame ps) := by
  induction h with
  | settled hset => exact iff_of_true rfl (hst.lined hset).tame
  | @stuck as bs a b hc _ hclear =>
    refine iff_of_false (by simp) fun htame => hclear ?_
    have htail := (List.pairwise_append.mp htame).2.1
    exact (hst.cut hc).clear_of_tame (hst.sameBlock hc.2.1 hc.2.2.2)
      ((List.pairwise_cons.mp htail).1 b (by simp))
  | @split as bs a b r hc hset hclear _ ih =>
    rw [ih (hst.split (hst.cut hc) hclear hset)]
    exact tame_split (hst.cut hc) (hst.sameBlock hc.2.1 hc.2.2.2) hclear

/-! ## The code -/

section

variable {n : Int}

/-- Ranges none of which cross are skipped. -/
theorem returns_settled {out : Hostlist} {free : Nat} {bs : List HostRange} :
    ∀ {as : List HostRange} {b : HostRange}, Settled (b :: bs) →
      (Returns (as.length + bs.length) (Hostlist.ofRanges (as ++ b :: bs) free n) out ↔
        Returns as.length (Hostlist.ofRanges (as ++ b :: bs) free n) out) := by
  induction bs with
  | nil => exact fun _ => Iff.rfl
  | cons c bs ih =>
    intro as b h
    have hlist : as ++ b :: c :: bs = (as ++ [b]) ++ c :: bs := by simp
    have hlen : as.length + (c :: bs).length = (as ++ [b]).length + bs.length := by
      simp
      omega
    rw [hlen, hlist, ih h.tail, ← hlist, List.length_append, List.length_singleton]
    exact returns_skip h.rel

/-- Up to the last neighbours that cross, the scan skips. -/
theorem returns_crosses {out : Hostlist} {free : Nat} {as bs : List HostRange}
    {a b : HostRange} (h : Settled (b :: bs)) :
    Returns ((as ++ a :: b :: bs).length - 1) (Hostlist.ofRanges (as ++ a :: b :: bs) free n) out ↔
      Returns (as.length + 1) (Hostlist.ofRanges (as ++ a :: b :: bs) free n) out := by
  have hlist : as ++ a :: b :: bs = (as ++ [a]) ++ b :: bs := by simp
  have hlen : (as ++ a :: b :: bs).length - 1 = (as ++ [a]).length + bs.length := by
    simp
    omega
  rw [hlen, hlist, returns_settled h, List.length_append, List.length_singleton]

/-- The first loop of `hostlist_coalesce` returns what the scan ends in. -/
theorem Scans.returns {ps rs ss : List HostRange} (h : Scans ps rs (some ss))
    (hst : State ps rs) : ∀ free, ∃ free', ∀ out,
      Returns (rs.length - 1) (Hostlist.ofRanges rs free n) out ↔
        Hostlist.ofRanges ss free' n = out := by
  generalize hr : some ss = r at h
  induction h with
  | @settled rs hset =>
    intro free
    obtain rfl := Option.some.inj hr
    refine ⟨free, fun out => ?_⟩
    cases ss with
    | nil => exact returns_zero
    | cons b bs =>
      have hskip := @returns_settled n out free bs [] b hset
      rw [List.length_nil, Nat.zero_add, List.nil_append] at hskip
      rw [List.length_cons, Nat.add_sub_cancel, hskip]
      exact returns_zero
  | stuck => cases hr
  | @split as bs a b r hc hset hclear _ ih =>
    intro free
    have hcut := hst.cut hc
    obtain ⟨free1, hsplit⟩ := @returns_split as bs a b free n hc hcut.lo_le hcut.upper_le
      hcut.hi_le.1 hclear.top
    obtain ⟨free2, hrest⟩ := ih (hst.split hcut hclear hset) hr free1
    refine ⟨free2, fun out => ?_⟩
    rw [returns_crosses hset, hsplit]
    exact hrest out

/-- A split that is not clear of a later block: the last part has its place behind
the first range of that block. -/
theorem State.highPart_crosses {ps as bs : List HostRange} {a b : HostRange}
    (h : State ps (as ++ a :: b :: bs)) (hc : Crosses a b) (hset : Settled (b :: bs))
    (hover : ¬ ∀ c ∈ ps, SamePrefix a c → c.ZeroPadded → a.level < c.level →
      ndigits (min a.hi b.hi) < c.level) :
    ∃ c cs, bs = c :: cs ∧ Crosses (highPart a b) c ∧ c.lo < (highPart a b).lo := by
  have hcut := h.cut hc
  have hblock := h.sameBlock hc.2.1 hc.2.2.2
  push Not at hover
  obtain ⟨d, hd, hsame, hpad, hlt, hle⟩ := hover
  have hltb := (hblock.2 d hd hsame hpad).mp hlt
  obtain ⟨e, he, hde, hep, hlevel⟩ := h.levels.fwd d hd hpad
  obtain ⟨-, htail, hcross⟩ := List.pairwise_append.mp h.sorted
  obtain ⟨-, hrest⟩ := List.pairwise_cons.mp htail
  obtain ⟨hball, hbs⟩ := List.pairwise_cons.mp hrest
  have hae : SamePrefix a e := hsame.trans hde
  have hmem : e ∈ bs := by
    rcases List.mem_append.mp he with he | he
    · have hbefore := (hcross e he a (by simp)).level_le hae.symm
      omega
    · simp only [List.mem_cons] at he
      rcases he with rfl | rfl | he
      · omega
      · omega
      · exact he
  cases bs with
  | nil => cases hmem
  | cons c cs =>
    refine ⟨c, cs, rfl, ?_⟩
    have hbc : Before b c := hball c (by simp)
    have hbe : SamePrefix b e := hc.2.1.symm.trans hae
    have hce : c = e ∨ Before c e := by
      rcases List.mem_cons.mp hmem with rfl | hmem
      · exact .inl rfl
      · exact .inr ((List.pairwise_cons.mp hbs).1 e hmem)
    have hsbc : SamePrefix b c := by
      rcases hce with rfl | hce
      · exact hbe
      · exact hbe.of_between hbc hce
    have hbclevel := hbc.level_le hsbc
    have hcelevel : c.level ≤ e.level := by
      rcases hce with rfl | hce
      · exact Nat.le_refl _
      · exact hce.level_le (hsbc.symm.trans hbe)
    have hcdigits : ndigits c.lo ≤ c.level := Nat.le_max_right _ _
    -- `c` is padded above the two ranges, or `e` could not be padded behind it
    have hno : ¬ Compatible b c := by
      intro hcompat
      have hend : b.hi ≤ c.lo := by
        by_contra hgt
        exact hset.rel ⟨hcut.single', hsbc, by omega, hcompat⟩
      have hmono := @ndigits_mono (min a.hi b.hi) c.lo (by omega)
      have heq : c.level = e.level := by omega
      have hlo : c.lo ≤ e.lo := by
        rcases hce with rfl | hce
        · exact Nat.le_refl _
        · exact hce.lo_le (hsbc.symm.trans hbe)
            ((compatible_iff_level hcelevel).mpr (.inl heq))
      refine not_zeroPadded_of_le heq hlo ?_ hep
      unfold HostRange.ZeroPadded
      omega
    rw [compatible_iff_level hbclevel] at hno
    simp only [not_or, not_not] at hno
    obtain ⟨hne, hcpad⟩ := hno
    have hwidth := hcut.level_eq.1
    have hhigh : highPart a b ∈ splitRanges a b := by
      rw [splitRanges_eq]
      simp
    have hhlevel : (highPart a b).level = max (splitWidth a b) (ndigits (min a.hi b.hi)) :=
      hcut.level_part hhigh
    have hblevel := hblock.2 d hd hsame hpad
    have hab : a.level ≤ b.level :=
      ((List.pairwise_cons.mp htail).1 b (by simp)).level_le hc.2.1
    have hhpad : ¬ (highPart a b).ZeroPadded := by
      show ¬ ndigits (min a.hi b.hi) < (highPart a b).level
      omega
    have hlo : c.lo < min a.hi b.hi := by
      by_contra hge
      have hmono := @ndigits_mono (min a.hi b.hi) c.lo (by omega)
      unfold HostRange.ZeroPadded at hcpad
      omega
    refine ⟨⟨hcut.single, hc.2.1.trans hsbc, ?_, ?_⟩, hlo⟩
    · show c.lo < max a.hi b.hi
      omega
    · rw [compatible_comm, compatible_iff_level (by omega)]
      exact .inr hhpad

/-- Where the scan is stuck the loop does not return. -/
theorem Scans.not_returns {ps rs : List HostRange} (h : Scans ps rs none) (hst : State ps rs) :
    ∀ free out, ¬ Returns (rs.length - 1) (Hostlist.ofRanges rs free n) out := by
  generalize hr : none = r at h
  induction h with
  | settled => cases hr
  | @stuck as bs a b hc hset hclear =>
    intro free out
    have hcut := hst.cut hc
    rw [returns_crosses hset]
    by_cases htop : min a.hi b.hi = ulongMax
    · exact not_returns_top hc hcut.hi_le.1 htop
    · obtain ⟨c, cs, rfl, hcross, hlo⟩ :=
        hst.highPart_crosses hc hset fun hlow => hclear ⟨hlow, htop⟩
      obtain ⟨free', hsplit⟩ := @returns_split as (c :: cs) a b free n hc hcut.lo_le
        hcut.upper_le hcut.hi_le.1 htop
      have hlist : as ++ splitRanges a b ++ c :: cs =
          (as ++ lowPart a b :: midParts a b) ++ highPart a b :: c :: cs := by
        rw [splitRanges_eq]
        simp
      have hco : c.lo ≤ c.hi := (hst.pushed c (by simp)).ordered (hcross.2.1.2 ▸ hcross.1)
      rw [hsplit, hlist, returns_crosses hset.tail]
      exact not_returns_empty hcross hlo hco
  | @split as bs a b r hc hset hclear _ ih =>
    intro free out
    have hcut := hst.cut hc
    obtain ⟨free', hsplit⟩ := @returns_split as bs a b free n hc hcut.lo_le hcut.upper_le
      hcut.hi_le.1 hclear.top
    rw [returns_crosses hset, hsplit]
    exact ih (hst.split hcut hclear hset) hr free' out

end

end Slurm.Hosts
