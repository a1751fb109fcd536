import SlurmLite.Base.Sort
import SlurmLite.Hostlist.Find

/-!
# The order of ranges

`hostrange_cmp` compares prefixes, then numbers when the widths of two ranges
are compatible and widths when they are not, changing widths as it goes. Behind
it is one order, `Before`: by prefix, then by `level`, the length of the first
host's number as it is printed, then by number.

* **Levels** (`compatible_iff_level`): widths are compatible exactly when the
  levels are equal or the higher one comes from the number and not from padding.
* **Comparison** (`hostrangeCmp_le_iff`): the comparison decides `Before` as long
  as the difference of two numbers fits an `int` (`Near`).
-/

namespace Slurm.Hosts

open Base.Text Base.CLib Base.Sort

/-! ## Levels -/

/-- The length of the lowest number as it is printed. -/
def HostRange.level (r : HostRange) : Nat := max r.width (ndigits r.lo)

/-- The lowest number is printed with zeros in front. -/
def HostRange.ZeroPadded (r : HostRange) : Prop := ndigits r.lo < r.level

instance (r : HostRange) : Decidable r.ZeroPadded :=
  inferInstanceAs (Decidable (_ < _))

theorem compatible_comm {h0 h1 : HostRange} : Compatible h0 h1 ↔ Compatible h1 h0 := by
  unfold Compatible
  rw [or_comm, eq_comm, eq_comm (a := padded h0.width h0.lo)]

/-- Compatible widths: equal levels, or a higher level that is not padding. -/
theorem compatible_iff_level {h0 h1 : HostRange} (hle : h0.level ≤ h1.level) :
    Compatible h0 h1 ↔ h0.level = h1.level ∨ ¬ h1.ZeroPadded := by
  unfold Compatible HostRange.ZeroPadded
  rw [padded_eq_padded_iff, padded_eq_padded_iff]
  unfold HostRange.level at *
  omega

/-- Two ranges sort alike: the same prefix, lowest number and level. -/
structure SameKey (r s : HostRange) : Prop where
  samePrefix : SamePrefix r s
  lo : s.lo = r.lo
  level : s.level = r.level

theorem SameKey.refl (r : HostRange) : SameKey r r := ⟨⟨rfl, rfl⟩, rfl, rfl⟩

theorem SameKey.trans {r s t : HostRange} (h : SameKey r s) (h' : SameKey s t) :
    SameKey r t :=
  ⟨⟨h.1.1.trans h'.1.1, h.1.2.trans h'.1.2⟩, h'.lo.trans h.lo, h'.level.trans h.level⟩

theorem SameKey.symm {r s : HostRange} (h : SameKey r s) : SameKey s r :=
  ⟨⟨h.1.1.symm, h.1.2.symm⟩, h.lo.symm, h.level.symm⟩

theorem Reprint.sameKey {r s : HostRange} (h : Reprint r s) : SameKey r s := by
  refine ⟨⟨h.pfx.symm, h.singlehost.symm⟩, h.lo, ?_⟩
  obtain ⟨w, rfl, hw⟩ := h
  exact padded_eq_padded_iff.mp hw

namespace SameKey

variable {r r' s s' : HostRange}

theorem zeroPadded (h : SameKey r s) : s.ZeroPadded ↔ r.ZeroPadded := by
  rw [HostRange.ZeroPadded, HostRange.ZeroPadded, h.level, h.lo]

theorem samePrefix_iff (hr : SameKey r r') (hs : SameKey s s') :
    SamePrefix r' s' ↔ SamePrefix r s := by
  obtain ⟨⟨h1, h2⟩, -, -⟩ := hr
  obtain ⟨⟨h3, h4⟩, -, -⟩ := hs
  rw [SamePrefix, SamePrefix, h1, h2, h3, h4]

theorem prefixCmp (hr : SameKey r r') (hs : SameKey s s') :
    hostrangePrefixCmp (some r') (some s') = hostrangePrefixCmp (some r) (some s) := by
  obtain ⟨⟨h1, h2⟩, -, -⟩ := hr
  obtain ⟨⟨h3, h4⟩, -, -⟩ := hs
  simp only [hostrangePrefixCmp, h1, h2, h3, h4]

theorem compatible (hr : SameKey r r') (hs : SameKey s s') :
    Compatible r' s' ↔ Compatible r s := by
  rcases Nat.le_total r.level s.level with h | h
  · rw [compatible_iff_level h, compatible_iff_level (by rw [hr.level, hs.level]; exact h),
      hr.level, hs.level, hs.zeroPadded]
  · rw [compatible_comm, @compatible_comm r s, compatible_iff_level h,
      compatible_iff_level (by rw [hr.level, hs.level]; exact h),
      hr.level, hs.level, hr.zeroPadded]

end SameKey

/-- A padded range cannot follow an unpadded one of its level. -/
theorem not_zeroPadded_of_le {r s : HostRange} (hlevel : r.level = s.level)
    (hlo : r.lo ≤ s.lo) (hr : ¬ r.ZeroPadded) : ¬ s.ZeroPadded := by
  have hmono := ndigits_mono hlo
  unfold HostRange.ZeroPadded at *
  omega

/-! ## Prefixes in order -/

/-- The comparison of prefixes as an order of texts, single hosts last. -/
theorem hostrangePrefixCmp_lt_iff {h1 h2 : HostRange} :
    hostrangePrefixCmp (some h1) (some h2) < 0 ↔
      strcmp h1.pfx h2.pfx < 0 ∨
        h1.pfx = h2.pfx ∧ h1.singlehost = true ∧ h2.singlehost = false := by
  simp only [hostrangePrefixCmp]
  by_cases hp : h1.pfx = h2.pfx
  · rw [hp, strcmp_self, if_pos rfl]
    cases h1.singlehost <;> cases h2.singlehost <;> simp
  · rw [if_neg (fun h => hp (strcmp_eq_zero_iff.mp h))]
    simp [hp]

theorem strcmp_trans_lt {s t u : List Char} (h1 : strcmp s t < 0) (h2 : strcmp t u ≤ 0) :
    strcmp s u < 0 := by
  have hle := strcmp_trans (Int.le_of_lt h1) h2
  by_contra hge
  have hzero : strcmp s u = 0 := by omega
  obtain rfl := strcmp_eq_zero_iff.mp hzero
  have := strcmp_antisymm s t
  omega

theorem prefixCmp_trans {a b c : HostRange}
    (h1 : hostrangePrefixCmp (some a) (some b) < 0)
    (h2 : hostrangePrefixCmp (some b) (some c) < 0) :
    hostrangePrefixCmp (some a) (some c) < 0 := by
  rw [hostrangePrefixCmp_lt_iff] at *
  rcases h1 with h1 | ⟨h1, h1', h1''⟩
  · rcases h2 with h2 | ⟨h2, -, -⟩
    · exact .inl (strcmp_trans_lt h1 (Int.le_of_lt h2))
    · exact .inl (h2 ▸ h1)
  · rcases h2 with h2 | ⟨-, h2, -⟩
    · exact .inl (h1 ▸ h2)
    · rw [h1''] at h2
      exact absurd h2 (by simp)

theorem prefixCmp_antisymm {a b : HostRange} :
    hostrangePrefixCmp (some b) (some a) = -hostrangePrefixCmp (some a) (some b) := by
  simp only [hostrangePrefixCmp]
  have hanti := strcmp_antisymm a.pfx b.pfx
  by_cases h : strcmp a.pfx b.pfx = 0
  · rw [if_pos h, if_pos (by omega)]
    omega
  · rw [if_neg h, if_neg (by omega)]
    exact hanti

theorem SamePrefix.symm {a b : HostRange} (h : SamePrefix a b) : SamePrefix b a :=
  ⟨h.1.symm, h.2.symm⟩

theorem SamePrefix.trans {a b c : HostRange} (h : SamePrefix a b) (h' : SamePrefix b c) :
    SamePrefix a c := ⟨h.1.trans h'.1, h.2.trans h'.2⟩

theorem SamePrefix.cmp_left {a b : HostRange} (h : SamePrefix a b) (c : HostRange) :
    hostrangePrefixCmp (some a) (some c) = hostrangePrefixCmp (some b) (some c) := by
  simp only [hostrangePrefixCmp, h.1, h.2]

theorem SamePrefix.cmp_right {a b : HostRange} (h : SamePrefix a b) (c : HostRange) :
    hostrangePrefixCmp (some c) (some a) = hostrangePrefixCmp (some c) (some b) := by
  simp only [hostrangePrefixCmp, h.1, h.2]

/-! ## The order -/

/-- The order behind `hostrange_cmp`. -/
def Before (a b : HostRange) : Prop :=
  hostrangePrefixCmp (some a) (some b) < 0 ∨
    SamePrefix a b ∧ (a.level < b.level ∨ a.level = b.level ∧ a.lo ≤ b.lo)

instance (a b : HostRange) : Decidable (Before a b) :=
  inferInstanceAs (Decidable (_ ∨ _))

theorem before_total (a b : HostRange) : Before a b ∨ Before b a := by
  unfold Before
  rw [prefixCmp_antisymm (a := a) (b := b)]
  rcases Int.lt_trichotomy (hostrangePrefixCmp (some a) (some b)) 0 with h | h | h
  · exact .inl (.inl h)
  · have hsame := hostrangePrefixCmp_eq_zero_iff.mp h
    by_cases hle : a.level < b.level ∨ a.level = b.level ∧ a.lo ≤ b.lo
    · exact .inl (.inr ⟨hsame, hle⟩)
    · exact .inr (.inr ⟨hsame.symm, by omega⟩)
  · exact .inr (.inl (by omega))

theorem Before.trans {a b c : HostRange} (h1 : Before a b) (h2 : Before b c) : Before a c := by
  rcases h1 with h1 | ⟨hs1, h1⟩
  · rcases h2 with h2 | ⟨hs2, -⟩
    · exact .inl (prefixCmp_trans h1 h2)
    · exact .inl (by rwa [hs2.cmp_right] at h1)
  · rcases h2 with h2 | ⟨hs2, h2⟩
    · exact .inl (by rwa [hs1.cmp_left])
    · exact .inr ⟨hs1.trans hs2, by omega⟩

theorem SameKey.before {r r' s s' : HostRange} (hr : SameKey r r') (hs : SameKey s s') :
    Before r' s' ↔ Before r s := by
  unfold Before
  rw [hr.prefixCmp hs, hr.samePrefix_iff hs, hr.level, hs.level, hr.lo, hs.lo]

/-- Ranges of one prefix between which another one sorts have its prefix. -/
theorem SamePrefix.of_between {a b c : HostRange} (h : SamePrefix a c) (h1 : Before a b)
    (h2 : Before b c) : SamePrefix a b := by
  have hzero := hostrangePrefixCmp_eq_zero_iff.mpr h
  rcases h1 with h1 | h1
  · rcases h2 with h2 | h2
    · have := prefixCmp_trans h1 h2
      omega
    · rw [← h2.1.cmp_right] at hzero
      omega
  · exact h1.1

theorem Before.level_le {a b : HostRange} (h : Before a b) (hs : SamePrefix a b) :
    a.level ≤ b.level := by
  have hzero := hostrangePrefixCmp_eq_zero_iff.mpr hs
  rcases h with h | h
  · omega
  · omega

/-- A compatible range that is not below has no lower number. -/
theorem Before.lo_le {a b : HostRange} (h : Before a b) (hs : SamePrefix a b)
    (hc : Compatible a b) : a.lo ≤ b.lo := by
  have hle := h.level_le hs
  have hzero := hostrangePrefixCmp_eq_zero_iff.mpr hs
  rcases h with h | ⟨-, h | h⟩
  · omega
  · have hpad := ((compatible_iff_level hle).mp hc).resolve_left (by omega)
    by_contra hlo
    have hmono := @ndigits_mono b.lo a.lo (by omega)
    unfold HostRange.ZeroPadded at hpad
    have : ndigits a.lo ≤ a.level := Nat.le_max_right _ _
    omega
  · exact h.2

/-! ## The comparison -/

/-- The difference of the lowest numbers of two ranges fits an `int` if it is
compared. -/
def Near (a b : HostRange) : Prop :=
  SamePrefix a b → Compatible a b → a.lo < b.lo + 2147483648 ∧ b.lo < a.lo + 2147483648

instance (a b : HostRange) : Decidable (Near a b) :=
  inferInstanceAs (Decidable (_ → _ → _))

theorem SameKey.near {r r' s s' : HostRange} (hr : SameKey r r') (hs : SameKey s s') :
    Near r' s' ↔ Near r s := by
  unfold Near
  rw [hr.samePrefix_iff hs, hr.compatible hs, hr.lo, hs.lo]

theorem int32_ulong_sub {m n : Nat} (h1 : m < n + 2147483648) (h2 : n < m + 2147483648) :
    int32 (ulong ((m : Int) - n)) = m - n := by
  unfold int32 ulong
  rw [Int.bmod_def]
  split <;> omega

/-- `hostrange_cmp` decides `Before`. -/
theorem hostrangeCmp_le_iff {a b : HostRange} (h : Near a b) :
    (hostrangeCmp a b).1 ≤ 0 ↔ Before a b := by
  unfold hostrangeCmp
  simp only []
  by_cases hs : SamePrefix a b
  · have hzero := hostrangePrefixCmp_eq_zero_iff.mpr hs
    rw [if_pos hzero, (hostrangeWidthCombine_spec a b).1]
    unfold Before
    rw [hzero]
    by_cases hc : Compatible a b
    · obtain ⟨h1, h2⟩ := h hs hc
      rw [if_pos (by simp [hc]), int32_ulong_sub h1 h2]
      -- the higher of two compatible levels belongs to the larger number
      have hlo : a.level < b.level → a.lo ≤ b.lo := fun hlt =>
        Before.lo_le (.inr ⟨hs, .inl hlt⟩) hs hc
      have hlo' : b.level < a.level → b.lo < a.lo := by
        intro hlt
        have hpad := ((compatible_iff_level (Nat.le_of_lt hlt)).mp
          (compatible_comm.mp hc)).resolve_left (by omega)
        by_contra hle
        have hmono := @ndigits_mono a.lo b.lo (by omega)
        unfold HostRange.ZeroPadded at hpad
        have : ndigits b.lo ≤ b.level := Nat.le_max_right _ _
        omega
      constructor
      · intro hle
        exact .inr ⟨hs, by omega⟩
      · rintro (hlt | ⟨-, hle⟩)
        · omega
        · omega
    · rw [if_neg (by simp [hc])]
      have hne : a.level ≠ b.level := fun he =>
        hc ((compatible_iff_level (Nat.le_of_eq he)).mpr (.inl he))
      have hpad : a.level < b.level → b.ZeroPadded := by
        intro hlt
        by_contra hno
        exact hc ((compatible_iff_level (Nat.le_of_lt hlt)).mpr (.inr hno))
      have hpad' : b.level < a.level → a.ZeroPadded := by
        intro hlt
        by_contra hno
        exact hc (compatible_comm.mp ((compatible_iff_level (Nat.le_of_lt hlt)).mpr (.inr hno)))
      unfold HostRange.ZeroPadded HostRange.level at hpad hpad'
      unfold HostRange.level at hne ⊢
      constructor
      · intro hle
        exact .inr ⟨hs, by omega⟩
      · rintro (hlt | ⟨-, hle⟩)
        · omega
        · omega
  · have hne : hostrangePrefixCmp (some a) (some b) ≠ 0 := fun h0 =>
      hs (hostrangePrefixCmp_eq_zero_iff.mp h0)
    rw [if_neg hne]
    unfold Before
    constructor
    · intro hle
      have hle' : hostrangePrefixCmp (some a) (some b) ≤ 0 := hle
      exact .inl (by omega)
    · rintro (hlt | ⟨hs', -⟩)
      · omega
      · exact absurd hs' hs

/-- Single hosts of one name are one range, so combining widths changes neither. -/
theorem SamePrefix.eq_of_single {a b : HostRange} (h : SamePrefix a b) (ha : a.Wf) (hb : b.Wf)
    (hs : a.singlehost = true) : a = b := by
  obtain ⟨a1, a2, a3⟩ := ha.single hs
  obtain ⟨b1, b2, b3⟩ := hb.single (h.2 ▸ hs)
  obtain ⟨hp, hsing⟩ := h
  cases a
  cases b
  simp_all

theorem hostrangeWidthCombine_self (a : HostRange) :
    hostrangeWidthCombine a a = (true, a, a) := by
  unfold hostrangeWidthCombine
  rw [widthEquiv_spec, if_pos rfl]

/-- A range after comparisons: reprinted, and still well formed. -/
def Kept (r s : HostRange) : Prop := Reprint r s ∧ (r.Wf → s.Wf)

theorem Kept.refl (r : HostRange) : Kept r r := ⟨.refl r, id⟩

theorem Kept.trans {r s t : HostRange} (h1 : Kept r s) (h2 : Kept s t) : Kept r t :=
  ⟨h1.1.trans h2.1, fun h => h2.2 (h1.2 h)⟩

theorem Kept.pushed {r s : HostRange} (h : Kept r s) (hr : r.Pushed) : s.Pushed := by
  refine ⟨⟨h.2 hr.toWf, fun hs => ?_⟩, h.1.ordered.mpr hr.ordered⟩
  rw [h.1.singlehost] at hs
  rw [h.1.pfx]
  exact hr.plain hs

theorem hostrangeWidthCombine_kept {a b : HostRange} (hs : SamePrefix a b) (ha : a.Wf)
    (hb : b.Wf) : Kept a (hostrangeWidthCombine a b).2.1 ∧
      Kept b (hostrangeWidthCombine a b).2.2 := by
  cases h : a.singlehost with
  | true =>
    obtain rfl := hs.eq_of_single ha hb h
    rw [hostrangeWidthCombine_self]
    exact ⟨.refl a, .refl a⟩
  | false =>
    obtain ⟨-, h1, h2, -⟩ := hostrangeWidthCombine_spec a b
    exact ⟨⟨h1, fun hw => h1.wf hw (.inl h)⟩, ⟨h2, fun hw => h2.wf hw (.inl (hs.2 ▸ h))⟩⟩

theorem hostrangeCmp_kept (a b : HostRange) (ha : a.Wf) (hb : b.Wf) :
    Kept a (hostrangeCmp a b).2.1 ∧ Kept b (hostrangeCmp a b).2.2 := by
  unfold hostrangeCmp
  simp only []
  split
  · rename_i h
    exact hostrangeWidthCombine_kept (hostrangePrefixCmp_eq_zero_iff.mp h) ha hb
  · exact ⟨.refl a, .refl b⟩

/-- Among ranges whose numbers lie near the comparison is that of `Before`. -/
theorem hostrangeCmp_answers {rs : List HostRange} (h : ∀ a ∈ rs, ∀ b ∈ rs, Near a b) :
    Answers hostrangeCmp Kept Before rs := by
  refine ⟨fun a _ b _ => before_total a b, fun a _ b _ c _ => Before.trans, ?_⟩
  intro a ha b hb a' b' ha' hb'
  have hka := ha'.1.sameKey
  have hkb := hb'.1.sameKey
  rw [hostrangeCmp_le_iff ((hka.near hkb).mpr (h a ha b hb)), hka.before hkb]

/-- Insertion sort is one sorting function the comparison may be given to. -/
theorem insertionSort_hostrange :
    Sorts hostrangeCmp Kept HostRange.Wf (insertionSort hostrangeCmp) :=
  insertionSort_sorts (fun _ _ h => h.2) (fun _ _ _ => .trans) hostrangeCmp_kept .refl

end Slurm.Hosts
