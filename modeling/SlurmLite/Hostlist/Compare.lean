import SlurmLite.Hostlist.Order

/-!
# What the comparison of ranges decides and rewrites

`_width_equiv` looks at the lowest numbers of two ranges and changes a width;
`hostrange_cmp` runs it before it compares, and returns the difference of the
two numbers as an `int`.

* **Widths** (`widthEquiv_prints`): a width it has changed prints every number
  of its range as before.
* **Order** (`hostrangeCmp_preorder_iff`): numbers are compared modulo 2³². The
  comparison orders three ranges exactly when no two of them lie opposite each
  other on that circle (`Opposed`) and the three do not go round it (`Circling`).
-/

namespace Slurm.Hosts

open Base.Text Base.CLib

/-! ## Widths -/

/-- Whenever `_width_equiv` returns 1, each range prints all its numbers with
the width it is left with as with the one it had. -/
theorem widthEquiv_prints {n wn m wm wn' wm' : Nat}
    (h : widthEquiv n wn m wm = (true, wn', wm')) :
    (∀ k, n ≤ k → padded wn' k = padded wn k) ∧
      (∀ k, m ≤ k → padded wm' k = padded wm k) := by
  rw [widthEquiv_spec] at h
  by_cases hn : padded wn n = padded wm n
  · -- the first range takes the width of the second
    rw [if_pos hn] at h
    obtain ⟨rfl, rfl⟩ : wm = wn' ∧ wm = wm' := by simpa using h
    exact ⟨fun k hk => padded_eq_padded_of_le hk hn.symm, fun k _ => rfl⟩
  · rw [if_neg hn] at h
    by_cases hm : padded wn m = padded wm m
    · rw [if_pos hm] at h
      obtain ⟨rfl, rfl⟩ : wn = wn' ∧ wn = wm' := by simpa using h
      exact ⟨fun k _ => rfl, fun k hk => padded_eq_padded_of_le hk hm⟩
    · rw [if_neg hm] at h
      simp at h

theorem widthEquiv_prints_twelve :
    widthEquiv 7 1 12 2 = (true, 1, 1) ∧
      (∀ k, 7 ≤ k → padded 1 k = padded 1 k) ∧ ∀ k, 12 ≤ k → padded 1 k = padded 2 k := by
  have h : widthEquiv 7 1 12 2 = (true, 1, 1) := by decide
  exact ⟨h, widthEquiv_prints h⟩

/-! ## Numbers modulo 2³² -/

/-- How far `n` lies ahead of `m` modulo 2³². -/
def aheadBy (m n : Nat) : Int := ((n : Int) - m) % 4294967296

theorem aheadBy_bounds (m n : Nat) : 0 ≤ aheadBy m n ∧ aheadBy m n < 4294967296 := by
  unfold aheadBy
  omega

theorem aheadBy_swap {m n : Nat} (h : aheadBy m n ≠ 0) :
    aheadBy n m = 4294967296 - aheadBy m n := by
  unfold aheadBy at *
  omega

theorem aheadBy_swap_zero {m n : Nat} (h : aheadBy m n = 0) : aheadBy n m = 0 := by
  unfold aheadBy at *
  omega

/-- The difference `hostrange_cmp` returns. -/
theorem int32_ulong_diff (m n : Nat) :
    int32 (ulong ((m : Int) - n)) =
      if aheadBy m n ≤ 2147483648 then -aheadBy m n else 4294967296 - aheadBy m n := by
  unfold int32 ulong aheadBy
  rw [Int.bmod_def]
  split <;> split <;> omega

/-! ## The sign of the comparison -/

/-- Incompatible widths: the higher level is padding. -/
theorem not_compatible_iff {a b : HostRange} :
    ¬ Compatible a b ↔
      a.level < b.level ∧ b.ZeroPadded ∨ b.level < a.level ∧ a.ZeroPadded := by
  rcases Nat.lt_trichotomy a.level b.level with h | h | h
  · rw [compatible_iff_level (Nat.le_of_lt h)]
    constructor
    · intro hno
      exact .inl ⟨h, by tauto⟩
    · rintro (⟨-, hp⟩ | ⟨hlt, -⟩)
      · rintro (he | hno)
        · omega
        · exact hno hp
      · omega
  · rw [compatible_iff_level (Nat.le_of_eq h)]
    constructor
    · intro hno
      exact absurd (.inl h) hno
    · rintro (⟨hlt, -⟩ | ⟨hlt, -⟩) <;> omega
  · rw [compatible_comm, compatible_iff_level (Nat.le_of_lt h)]
    constructor
    · intro hno
      exact .inr ⟨h, by tauto⟩
    · rintro (⟨hlt, -⟩ | ⟨-, hp⟩)
      · omega
      · rintro (he | hno)
        · omega
        · exact hno hp

/-- Incompatible widths compare as the levels do. -/
theorem width_lt_iff_level {a b : HostRange} (hc : ¬ Compatible a b) :
    (a.width < b.width ↔ a.level < b.level) ∧ (b.width < a.width ↔ b.level < a.level) := by
  rw [not_compatible_iff] at hc
  unfold HostRange.ZeroPadded HostRange.level at hc
  unfold HostRange.level
  omega

/-- The sign of `hostrange_cmp` from the prefixes, the lowest numbers modulo
2³² and the levels. -/
theorem hostrangeCmp_sign (a b : HostRange) :
    (hostrangeCmp a b).1.sign =
      if SamePrefix a b then
        if Compatible a b then
          if aheadBy a.lo b.lo = 0 then 0 else if aheadBy a.lo b.lo ≤ 2147483648 then -1 else 1
        else if a.level < b.level then -1 else 1
      else (hostrangePrefixCmp (some a) (some b)).sign := by
  unfold hostrangeCmp
  simp only [hostrangePrefixCmp_eq_zero_iff]
  by_cases hs : SamePrefix a b
  · rw [if_pos hs, if_pos hs]
    simp only [(hostrangeWidthCombine_spec a b).1, decide_eq_true_eq]
    by_cases hc : Compatible a b
    · rw [if_pos hc, if_pos hc, int32_ulong_diff]
      have hb := aheadBy_bounds a.lo b.lo
      by_cases h0 : aheadBy a.lo b.lo = 0
      · rw [if_pos h0, h0]
        rfl
      · rw [if_neg h0]
        by_cases hle : aheadBy a.lo b.lo ≤ 2147483648
        · rw [if_pos hle, if_pos hle]
          exact Int.sign_eq_neg_one_of_neg (by omega)
        · rw [if_neg hle, if_neg hle]
          exact Int.sign_eq_one_of_pos (by omega)
    · rw [if_neg hc, if_neg hc]
      obtain ⟨hlt, hgt⟩ := width_lt_iff_level hc
      have hne := not_compatible_iff.mp hc
      by_cases h : a.level < b.level
      · rw [if_pos h]
        have := hlt.mpr h
        exact Int.sign_eq_neg_one_of_neg (by omega)
      · rw [if_neg h]
        have := hgt.mpr (by omega)
        exact Int.sign_eq_one_of_pos (by omega)
  · rw [if_neg hs, if_neg hs]

/-- Ranges that sort alike compare alike. -/
theorem SameKey.cmp_sign {a a' b b' : HostRange} (ha : SameKey a a') (hb : SameKey b b') :
    (hostrangeCmp a' b').1.sign = (hostrangeCmp a b).1.sign := by
  rw [hostrangeCmp_sign, hostrangeCmp_sign, ha.prefixCmp hb]
  simp only [ha.samePrefix_iff hb, ha.compatible hb, ha.lo, hb.lo, ha.level, hb.level]

/-- The comparison puts `a` not after `b`. -/
def NotAfter (a b : HostRange) : Prop :=
  hostrangePrefixCmp (some a) (some b) < 0 ∨
    SamePrefix a b ∧ (Compatible a b ∧ aheadBy a.lo b.lo ≤ 2147483648 ∨
      ¬ Compatible a b ∧ a.level < b.level)

theorem hostrangeCmp_le_iff_notAfter {a b : HostRange} :
    (hostrangeCmp a b).1 ≤ 0 ↔ NotAfter a b := by
  have hsign : (hostrangeCmp a b).1 ≤ 0 ↔ (hostrangeCmp a b).1.sign ≤ 0 :=
    Int.sign_nonpos_iff.symm
  rw [hsign, hostrangeCmp_sign]
  unfold NotAfter
  by_cases hs : SamePrefix a b
  · have hzero := hostrangePrefixCmp_eq_zero_iff.mpr hs
    have hb := aheadBy_bounds a.lo b.lo
    rw [if_pos hs, hzero]
    by_cases hc : Compatible a b
    · rw [if_pos hc]
      split
      · simp [hs, hc]; omega
      · split <;> simp [hs, hc] <;> omega
    · rw [if_neg hc]
      split <;> simp [hs, hc] <;> omega
  · have hne : hostrangePrefixCmp (some a) (some b) ≠ 0 := fun h0 =>
      hs (hostrangePrefixCmp_eq_zero_iff.mp h0)
    rw [if_neg hs, Int.sign_nonpos_iff]
    simp only [hs, false_and, or_false]
    omega

/-! ## When it is an order -/

/-- Two ranges whose lowest numbers are compared and lie 2³¹ apart modulo 2³². -/
def Opposed (a b : HostRange) : Prop :=
  SamePrefix a b ∧ Compatible a b ∧ aheadBy a.lo b.lo = 2147483648

instance (a b : HostRange) : Decidable (Opposed a b) :=
  inferInstanceAs (Decidable (_ ∧ _))

/-- From `b` on to `c` and on to `a` the lowest numbers step less than 2³¹
ahead, although `a` sorts below `b`: by level, or because the step from `a` to
`b` goes ahead as well and the three numbers are not one number modulo 2³². -/
def Circling (a b c : HostRange) : Prop :=
  SamePrefix a b ∧ SamePrefix b c ∧ Compatible b c ∧ Compatible c a ∧
    aheadBy b.lo c.lo < 2147483648 ∧ aheadBy c.lo a.lo < 2147483648 ∧
    (¬ Compatible a b ∧ a.level < b.level ∨
      Compatible a b ∧ aheadBy a.lo b.lo < 2147483648 ∧
        ¬ (aheadBy a.lo b.lo = 0 ∧ aheadBy b.lo c.lo = 0))

instance (a b c : HostRange) : Decidable (Circling a b c) :=
  inferInstanceAs (Decidable (_ ∧ _))

/-- `a'` is `a` after any number of comparisons with other ranges. -/
inductive Compared : HostRange → HostRange → Prop
  | refl (a : HostRange) : Compared a a
  | first {a b : HostRange} (x : HostRange) (h : Compared a b) :
      Compared a (hostrangeCmp b x).2.1
  | second {a b : HostRange} (x : HostRange) (h : Compared a b) :
      Compared a (hostrangeCmp x b).2.2

/-- `hostrange_cmp` is a total preorder on the ranges of `s`, whatever earlier
comparisons did to their widths: signs are opposite or both zero, and the order
is transitive. -/
structure Preordered (s : HostRange → Prop) : Prop where
  antisymm : ∀ a b, s a → s b → ∀ a' a'' b' b'',
    Compared a a' → Compared a a'' → Compared b b' → Compared b b'' →
      (hostrangeCmp a' b').1.sign = -(hostrangeCmp b'' a'').1.sign
  trans : ∀ a b c, s a → s b → s c → ∀ a' a'' b' b'' c' c'',
    Compared a a' → Compared a a'' → Compared b b' → Compared b b'' →
      Compared c c' → Compared c c'' →
      (hostrangeCmp a' b').1 ≤ 0 → (hostrangeCmp b'' c').1 ≤ 0 → (hostrangeCmp a'' c'').1 ≤ 0

theorem hostrangeCmp_reprint (a b : HostRange) :
    Reprint a (hostrangeCmp a b).2.1 ∧ Reprint b (hostrangeCmp a b).2.2 := by
  unfold hostrangeCmp
  simp only []
  split
  · obtain ⟨-, h1, h2, -⟩ := hostrangeWidthCombine_spec a b
    exact ⟨h1, h2⟩
  · exact ⟨.refl a, .refl b⟩

theorem Compared.sameKey {a a' : HostRange} (h : Compared a a') : SameKey a a' := by
  induction h with
  | refl => exact .refl a
  | first x _ ih => exact ih.trans (hostrangeCmp_reprint _ x).1.sameKey
  | second x _ ih => exact ih.trans (hostrangeCmp_reprint x _).2.sameKey

/-- Signs are opposite unless the two ranges are opposed. -/
theorem hostrangeCmp_sign_swap {a b : HostRange} (h : ¬ Opposed a b) :
    (hostrangeCmp a b).1.sign = -(hostrangeCmp b a).1.sign := by
  rw [hostrangeCmp_sign, hostrangeCmp_sign]
  by_cases hs : SamePrefix a b
  · rw [if_pos hs, if_pos hs.symm]
    by_cases hc : Compatible a b
    · have hne : aheadBy a.lo b.lo ≠ 2147483648 := fun he => h ⟨hs, hc, he⟩
      rw [if_pos hc, if_pos (compatible_comm.mp hc)]
      by_cases h0 : aheadBy a.lo b.lo = 0
      · rw [if_pos h0, if_pos (aheadBy_swap_zero h0)]
        rfl
      · have hswap := aheadBy_swap h0
        have hb := aheadBy_bounds a.lo b.lo
        have hback : aheadBy b.lo a.lo ≠ 0 := by omega
        rw [if_neg h0, if_neg hback]
        by_cases hle : aheadBy a.lo b.lo ≤ 2147483648
        · rw [if_pos hle, if_neg (by omega)]
        · rw [if_neg hle, if_pos (by omega)]
          rfl
    · rw [if_neg hc, if_neg (fun h' => hc (compatible_comm.mp h'))]
      have hne := not_compatible_iff.mp hc
      split <;> split <;> omega
  · rw [if_neg hs, if_neg (fun h' => hs h'.symm), prefixCmp_antisymm (a := a) (b := b),
      Int.sign_neg, neg_neg]

/-- Opposed ranges are each below the other. -/
theorem Opposed.not_antisymm {a b : HostRange} (h : Opposed a b) :
    (hostrangeCmp a b).1.sign ≠ -(hostrangeCmp b a).1.sign := by
  obtain ⟨hs, hc, he⟩ := h
  have hswap := @aheadBy_swap a.lo b.lo (by omega)
  rw [hostrangeCmp_sign, hostrangeCmp_sign, if_pos hs, if_pos hs.symm, if_pos hc,
    if_pos (compatible_comm.mp hc), he, hswap, he]
  decide

/-- A step that goes on with prefixes is never undone. -/
theorem NotAfter.trans_of_prefix {a b c : HostRange} (h1 : NotAfter a b) (h2 : NotAfter b c)
    (hs : ¬ (SamePrefix a b ∧ SamePrefix b c)) : NotAfter a c := by
  refine .inl ?_
  rcases h1 with h1 | ⟨hab, -⟩
  · rcases h2 with h2 | ⟨hbc, -⟩
    · exact prefixCmp_trans h1 h2
    · rwa [hbc.cmp_right] at h1
  · rcases h2 with h2 | ⟨hbc, -⟩
    · rwa [hab.cmp_left]
    · exact absurd ⟨hab, hbc⟩ hs

theorem SamePrefix.notAfter_iff {a b : HostRange} (h : SamePrefix a b) :
    NotAfter a b ↔ (Compatible a b → aheadBy a.lo b.lo ≤ 2147483648) ∧
      (¬ Compatible a b → a.level < b.level) := by
  unfold NotAfter
  rw [hostrangePrefixCmp_eq_zero_iff.mpr h]
  by_cases hc : Compatible a b <;> simp [h, hc]

/-- Padding above `b` is padding above what is below `b`. -/
theorem not_compatible_trans {a b c : HostRange} (hbc : ¬ Compatible b c)
    (h1 : a.level < b.level) (h2 : b.level < c.level) : ¬ Compatible a c := by
  rw [not_compatible_iff] at *
  unfold HostRange.ZeroPadded at *
  omega

/-- Padding above `c` is padding above what is below `c`. -/
theorem not_compatible_across {a b c : HostRange} (hac : ¬ Compatible a c)
    (h1 : b.level < c.level) (h2 : ¬ a.level < c.level) : ¬ Compatible a b := by
  rw [not_compatible_iff] at *
  unfold HostRange.ZeroPadded at *
  omega

/-- Three ranges of one prefix that are in order two by two but not as a whole:
they go round, from whichever of the three widths leave uncompared. -/
theorem circling_of_not_trans {a b c : HostRange} (hab : SamePrefix a b) (hbc : SamePrefix b c)
    (cab : Compatible a b → aheadBy a.lo b.lo < 2147483648)
    (cbc : Compatible b c → aheadBy b.lo c.lo < 2147483648)
    (cca : Compatible a c → aheadBy c.lo a.lo < 2147483648 ∧ aheadBy c.lo a.lo ≠ 0)
    (lab : ¬ Compatible a b → a.level < b.level) (lbc : ¬ Compatible b c → b.level < c.level)
    (lca : ¬ Compatible a c → ¬ a.level < c.level) :
    Circling a b c ∨ Circling b c a ∨ Circling c a b := by
  have hca := (hab.trans hbc).symm
  by_cases pab : Compatible a b
  · by_cases pbc : Compatible b c
    · by_cases pac : Compatible a c
      · obtain ⟨hlt, hne⟩ := cca pac
        have hsum : aheadBy a.lo b.lo = 0 → aheadBy b.lo c.lo = 0 → aheadBy c.lo a.lo = 0 := by
          unfold aheadBy
          omega
        exact .inl ⟨hab, hbc, pbc, compatible_comm.mp pac, cbc pbc, hlt,
          .inr ⟨pab, cab pab, fun h => hne (hsum h.1 h.2)⟩⟩
      · -- `c` sorts below `a` by level, the two other steps are compared
        have hlev : c.level < a.level := by
          have hne := not_compatible_iff.mp pac
          have hge := lca pac
          omega
        exact .inr (.inr ⟨hca, hab, pab, pbc, cab pab, cbc pbc,
          .inl ⟨fun h => pac (compatible_comm.mp h), hlev⟩⟩)
    · by_cases pac : Compatible a c
      · exact .inr (.inl ⟨hbc, hca, compatible_comm.mp pac, pab, (cca pac).1, cab pab,
          .inl ⟨pbc, lbc pbc⟩⟩)
      · exact absurd pab (not_compatible_across pac (lbc pbc) (lca pac))
  · by_cases pac : Compatible a c
    · by_cases pbc : Compatible b c
      · exact .inl ⟨hab, hbc, pbc, compatible_comm.mp pac, cbc pbc, (cca pac).1,
          .inl ⟨pab, lab pab⟩⟩
      · exact absurd pac (not_compatible_trans pbc (lab pab) (lbc pbc))
    · by_cases pbc : Compatible b c
      · have h1 := lab pab
        have h2 := lca pac
        have h3 := not_compatible_iff.mp pac
        -- `a` is padding above `c` and `b` is padding above `a`
        exact absurd (compatible_comm.mp pbc) (not_compatible_trans pab (by omega) h1)
      · have h1 := lab pab
        have h2 := lbc pbc
        exact absurd (by omega) (lca pac)

/-- Three ranges that neither oppose each other nor go round are in order. -/
theorem NotAfter.trans {a b c : HostRange} (h1 : NotAfter a b) (h2 : NotAfter b c)
    (ho : ¬ Opposed a b ∧ ¬ Opposed b c)
    (hr : ¬ Circling a b c ∧ ¬ Circling b c a ∧ ¬ Circling c a b) : NotAfter a c := by
  by_cases hs : SamePrefix a b ∧ SamePrefix b c
  · obtain ⟨hab, hbc⟩ := hs
    obtain ⟨cab, lab⟩ := hab.notAfter_iff.mp h1
    obtain ⟨cbc, lbc⟩ := hbc.notAfter_iff.mp h2
    have sab : Compatible a b → aheadBy a.lo b.lo < 2147483648 := fun hc =>
      lt_of_le_of_ne (cab hc) fun he => ho.1 ⟨hab, hc, he⟩
    have sbc : Compatible b c → aheadBy b.lo c.lo < 2147483648 := fun hc =>
      lt_of_le_of_ne (cbc hc) fun he => ho.2 ⟨hbc, hc, he⟩
    have hnone : ¬ (Circling a b c ∨ Circling b c a ∨ Circling c a b) := by tauto
    rw [(hab.trans hbc).notAfter_iff]
    by_contra hno
    by_cases pac : Compatible a c
    · have hgt : ¬ aheadBy a.lo c.lo ≤ 2147483648 := fun hle =>
        hno ⟨fun _ => hle, fun hn => absurd pac hn⟩
      have hb := aheadBy_bounds a.lo c.lo
      have hswap := @aheadBy_swap a.lo c.lo (by omega)
      exact hnone (circling_of_not_trans hab hbc sab sbc (fun _ => ⟨by omega, by omega⟩)
        lab lbc fun hn => absurd pac hn)
    · have hlev : ¬ a.level < c.level := fun hl =>
        hno ⟨fun hp => absurd hp pac, fun _ => hl⟩
      exact hnone (circling_of_not_trans hab hbc sab sbc (fun hp => absurd hp pac)
        lab lbc fun _ => hlev)
  · exact h1.trans_of_prefix h2 hs

/-- Three ranges that go round are not in order. -/
theorem Circling.not_trans {a b c : HostRange} (h : Circling a b c) :
    ¬ ((NotAfter a b → NotAfter b c → NotAfter a c) ∧
      (NotAfter b c → NotAfter c a → NotAfter b a) ∧
      (NotAfter c a → NotAfter a b → NotAfter c b)) := by
  obtain ⟨hab, hbc, pbc, pca, sbc, sca, hrest⟩ := h
  have hca := (hab.trans hbc).symm
  have nbc : NotAfter b c := hbc.notAfter_iff.mpr
    ⟨fun _ => Int.le_of_lt sbc, fun hn => absurd pbc hn⟩
  have nca : NotAfter c a := hca.notAfter_iff.mpr
    ⟨fun _ => Int.le_of_lt sca, fun hn => absurd pca hn⟩
  rintro ⟨hac, hba, hcb⟩
  obtain ⟨cba, lba⟩ := hab.symm.notAfter_iff.mp (hba nbc nca)
  rcases hrest with ⟨pab, hlev⟩ | ⟨pab, sab, hne⟩
  · have := lba fun h => pab (compatible_comm.mp h)
    omega
  · have nab : NotAfter a b := hab.notAfter_iff.mpr
      ⟨fun _ => Int.le_of_lt sab, fun hn => absurd pab hn⟩
    have h1 := (hca.symm.notAfter_iff.mp (hac nab nbc)).1 (compatible_comm.mp pca)
    have h2 := cba (compatible_comm.mp pab)
    -- each step goes ahead and back by at most half a round, so it is none
    unfold aheadBy at *
    omega

/-- Ranges no two of which oppose each other and no three of which go round are in order. -/
theorem preordered_of_free {a b c : HostRange}
    (hopp : ∀ x ∈ [a, b, c], ∀ y ∈ [a, b, c], ¬ Opposed x y)
    (hcirc : ∀ x ∈ [a, b, c], ∀ y ∈ [a, b, c], ∀ z ∈ [a, b, c], ¬ Circling x y z) :
    Preordered (· ∈ [a, b, c]) := by
  refine ⟨?_, ?_⟩
  · intro x y hx hy x' x'' y' y'' hx' hx'' hy' hy''
    rw [hx'.sameKey.cmp_sign hy'.sameKey, hy''.sameKey.cmp_sign hx''.sameKey]
    exact hostrangeCmp_sign_swap (hopp x hx y hy)
  · intro x y z hx hy hz x' x'' y' y'' z' z'' hx' hx'' hy' hy'' hz' hz''
    have hkey : ∀ {u u' v v' : HostRange}, Compared u u' → Compared v v' →
        ((hostrangeCmp u' v').1 ≤ 0 ↔ NotAfter u v) := by
      intro u u' v v' hu hv
      rw [← hostrangeCmp_le_iff_notAfter, ← Int.sign_nonpos_iff,
        hu.sameKey.cmp_sign hv.sameKey, Int.sign_nonpos_iff]
    rw [hkey hx' hy', hkey hy'' hz', hkey hx'' hz'']
    intro h1 h2
    exact h1.trans h2 ⟨hopp x hx y hy, hopp y hy z hz⟩
      ⟨hcirc x hx y hy z hz, hcirc y hy z hz x hx, hcirc z hz x hx y hy⟩

/-- **`hostrange_cmp` as an order.** It is a total preorder on three ranges
exactly when no two of them are opposed and no three go round modulo 2³². -/
theorem hostrangeCmp_preorder_iff (a b c : HostRange) :
    Preordered (· ∈ [a, b, c]) ↔
      (∀ x ∈ [a, b, c], ∀ y ∈ [a, b, c], ¬ Opposed x y) ∧
        ∀ x ∈ [a, b, c], ∀ y ∈ [a, b, c], ∀ z ∈ [a, b, c], ¬ Circling x y z := by
  constructor
  · rintro ⟨hanti, htrans⟩
    refine ⟨fun x hx y hy h => h.not_antisymm ?_, fun x hx y hy z hz h => h.not_trans ?_⟩
    · exact hanti x y hx hy x x y y (.refl x) (.refl x) (.refl y) (.refl y)
    · have ht : ∀ u ∈ [a, b, c], ∀ v ∈ [a, b, c], ∀ w ∈ [a, b, c],
          NotAfter u v → NotAfter v w → NotAfter u w := by
        intro u hu v hv w hw
        rw [← hostrangeCmp_le_iff_notAfter, ← hostrangeCmp_le_iff_notAfter,
          ← hostrangeCmp_le_iff_notAfter]
        exact htrans u v w hu hv hw u u v v w w (.refl u) (.refl u) (.refl v) (.refl v)
          (.refl w) (.refl w)
      exact ⟨ht x hx y hy z hz, ht y hy z hz x hx, ht z hz x hx y hy⟩
  · rintro ⟨hopp, hcirc⟩
    exact preordered_of_free hopp hcirc

/-- `n0` and `n2147483648` are each below the other. -/
theorem hostrangeCmp_not_preorder :
    ¬ Preordered (· ∈ [hostrangeCreate ['n'] 0 0 1,
      hostrangeCreate ['n'] 2147483648 2147483648 1, hostrangeCreate ['n'] 0 0 1]) := by
  intro h
  have hs := h.antisymm (hostrangeCreate ['n'] 0 0 1)
    (hostrangeCreate ['n'] 2147483648 2147483648 1) (by simp) (by simp) _ _ _ _
    (.refl _) (.refl _) (.refl _) (.refl _)
  revert hs
  decide

/-- Ranges whose compared numbers lie less than 2³¹ apart are in order. -/
theorem hostrangeCmp_preorder_of_near {a b c : HostRange}
    (h : ∀ x ∈ [a, b, c], ∀ y ∈ [a, b, c], Near x y) : Preordered (· ∈ [a, b, c]) := by
  refine preordered_of_free ?_ ?_
  · rintro x hx y hy ⟨hs, hc, he⟩
    have hnear := h x hx y hy hs hc
    unfold aheadBy at he
    omega
  · rintro x hx y hy z hz ⟨hxy, hyz, cyz, czx, syz, szx, hrest⟩
    have hzx := (hxy.trans hyz).symm
    have h1 := h y hy z hz hyz cyz
    have h2 := h z hz x hx hzx czx
    have hle1 : y.lo ≤ z.lo := by
      unfold aheadBy at syz
      omega
    have hle2 : z.lo ≤ x.lo := by
      unfold aheadBy at szx
      omega
    rcases hrest with ⟨cxy, hlev⟩ | ⟨cxy, sxy, hne⟩
    · -- `z` prints longer than `x` and is no padding, so it is the larger number
      have hpad := not_compatible_iff.mp cxy
      have hmono := ndigits_mono hle2
      have nyz : ¬ (z.level < y.level ∧ y.ZeroPadded) := fun hn =>
        not_compatible_iff.mpr (.inr hn) cyz
      have nzx : ¬ (x.level < z.level ∧ z.ZeroPadded) := fun hn =>
        not_compatible_iff.mpr (.inr hn) czx
      have hx' : ndigits x.lo ≤ x.level := Nat.le_max_right _ _
      unfold HostRange.ZeroPadded at *
      omega
    · have h3 := h x hx y hy hxy cxy
      unfold aheadBy at sxy hne
      omega

end Slurm.Hosts
