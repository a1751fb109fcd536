import SlurmLite.Hostlist.Coalesce

/-!
# Blocks of ranges

Sorted ranges of one prefix fall into blocks: a zero-padded range of a higher
level starts the next one, and within a block all widths are compatible. The
ranges of a block are intervals in order of their lowest numbers, and
`hostlist_coalesce` splits them as such, unless two ranges overlap up to numbers
as long as those of a later block (`Tame`).

* **Blocks** (`State.sameBlock`, `State.hi_le`): neighbours with compatible
  widths share a block, and where no neighbours cross each range ends before a
  later one of its block starts.
* **One split** (`State.split`, `tame_split`): in order before and after, and
  `Tame` after exactly when `Tame` before.
-/

namespace Slurm.Hosts

open Base.Text Base.CLib Base.Sort

/-! ## Blocks -/

/-- Two ranges belong to one block of the ranges `ps`: no padded range has a level
above that of the one and not above that of the other. -/
def SameBlock (ps : List HostRange) (a b : HostRange) : Prop :=
  SamePrefix a b ∧
    ∀ c ∈ ps, SamePrefix a c → c.ZeroPadded → (a.level < c.level ↔ b.level < c.level)

instance (ps : List HostRange) (a b : HostRange) : Decidable (SameBlock ps a b) :=
  inferInstanceAs (Decidable (_ ∧ _))

/-- What two ranges of a block share has numbers shorter than any padded to a higher
level, and does not reach the largest number. -/
def Tame (ps : List HostRange) (a b : HostRange) : Prop :=
  a.singlehost = false → SameBlock ps a b →
    (∀ c ∈ ps, SamePrefix a c → c.ZeroPadded → a.level < c.level →
      ndigits (min a.hi b.hi) < c.level) ∧
    (a.lo < ulongMax → b.lo < ulongMax → min a.hi b.hi ≠ ulongMax)

instance (ps : List HostRange) (a b : HostRange) : Decidable (Tame ps a b) :=
  inferInstanceAs (Decidable (_ → _ → _ ∧ (_ → _ → _)))

/-- The padded ranges of two lists have the same levels. -/
structure SameLevels (ps rs : List HostRange) : Prop where
  fwd : ∀ c ∈ ps, c.ZeroPadded → ∃ d ∈ rs, SamePrefix c d ∧ d.ZeroPadded ∧ d.level = c.level
  bwd : ∀ d ∈ rs, d.ZeroPadded → ∃ c ∈ ps, SamePrefix d c ∧ c.ZeroPadded ∧ c.level = d.level

/-- No neighbours cross. -/
def Settled (rs : List HostRange) : Prop := rs.IsChain fun a b => ¬ Crosses a b

/-- Sorted ranges on the way from `ps`. -/
structure State (ps rs : List HostRange) : Prop where
  pushed : ∀ r ∈ rs, r.Pushed
  sorted : rs.Pairwise Before
  levels : SameLevels ps rs

section

variable {ps : List HostRange} {a b c : HostRange}

theorem SameBlock.refl (ps : List HostRange) (a : HostRange) : SameBlock ps a a :=
  ⟨⟨rfl, rfl⟩, fun _ _ _ _ => Iff.rfl⟩

theorem SameBlock.symm (h : SameBlock ps a b) : SameBlock ps b a :=
  ⟨h.1.symm, fun c hc hs hp => (h.2 c hc (h.1.trans hs) hp).symm⟩

theorem SameBlock.trans (h : SameBlock ps a b) (h' : SameBlock ps b c) : SameBlock ps a c :=
  ⟨h.1.trans h'.1, fun d hd hs hp =>
    (h.2 d hd hs hp).trans (h'.2 d hd (h.1.symm.trans hs) hp)⟩

theorem SameKey.sameBlock (h : SameKey a b) (ps : List HostRange) : SameBlock ps a b :=
  ⟨h.samePrefix, fun _ _ _ _ => by rw [h.level]⟩

theorem Tame.symm (h : Tame ps a b) : Tame ps b a := by
  intro hs hb
  have hb' := hb.symm
  obtain ⟨hlow, htop⟩ := h (hb'.1.2.trans hs) hb'
  rw [Nat.min_comm]
  refine ⟨fun c hc hsame hp hlt => ?_, fun h1 h2 => htop h2 h1⟩
  exact hlow c hc (hb'.1.trans hsame) hp ((hb'.2 c hc (hb'.1.trans hsame) hp).mpr hlt)

/-- Ranges of one block have compatible widths. -/
theorem SameBlock.compatible (h : SameBlock ps a b) (hle : a.level ≤ b.level)
    (hb : b.ZeroPadded → ∃ c ∈ ps, SamePrefix b c ∧ c.ZeroPadded ∧ c.level = b.level) :
    Compatible a b := by
  rw [compatible_iff_level hle]
  by_contra hno
  simp only [not_or, not_not] at hno
  obtain ⟨hne, hpad⟩ := hno
  obtain ⟨c, hc, hsame, hcp, hlevel⟩ := hb hpad
  have hiff := h.2 c hc (h.1.trans hsame) hcp
  omega

/-- A range that sorts between two of a block belongs to it. -/
theorem SameBlock.of_between (h : SameBlock ps a c) (h1 : Before a b) (h2 : Before b c) :
    SameBlock ps a b := by
  have hs := h.1.of_between h1 h2
  have hle1 := h1.level_le hs
  have hle2 := h2.level_le (hs.symm.trans h.1)
  refine ⟨hs, fun d hd hsame hp => ?_⟩
  have hiff := h.2 d hd hsame hp
  omega

end

section

variable {ps as bs : List HostRange} {a b c : HostRange}

/-- Neighbours with compatible widths share a block. -/
theorem State.sameBlock (h : State ps (as ++ a :: b :: bs)) (hs : SamePrefix a b)
    (hc : Compatible a b) : SameBlock ps a b := by
  have hsorted := h.sorted
  rw [List.pairwise_append] at hsorted
  obtain ⟨-, htail, hcross⟩ := hsorted
  obtain ⟨hall, hrest⟩ := List.pairwise_cons.mp htail
  obtain ⟨hball, -⟩ := List.pairwise_cons.mp hrest
  have hab : Before a b := hall b (by simp)
  have hle := hab.level_le hs
  refine ⟨hs, fun c hc' hsame hp => ⟨fun hlt => ?_, fun hlt => Nat.lt_of_le_of_lt hle hlt⟩⟩
  by_contra hge
  -- a padded range with that level would have its place between the two
  have hbpad : ¬ b.ZeroPadded :=
    ((compatible_iff_level hle).mp hc).resolve_left (by omega)
  obtain ⟨d, hd, hcd, hdp, hlevel⟩ := h.levels.fwd c hc' hp
  have had : SamePrefix a d := hsame.trans hcd
  rcases List.mem_append.mp hd with hd | hd
  · have hbefore := (hcross d hd a (by simp)).level_le had.symm
    omega
  · rcases List.mem_cons.mp hd with rfl | hd
    · omega
    · rcases List.mem_cons.mp hd with rfl | hd
      · exact hbpad hdp
      · have hbd := hball d hd
        have hsbd : SamePrefix b d := hs.symm.trans had
        have hled := hbd.level_le hsbd
        have heq : b.level = d.level := by omega
        have hlo := hbd.lo_le hsbd ((compatible_iff_level hled).mpr (.inl heq))
        exact not_zeroPadded_of_le heq hlo hbpad hdp

/-- Where no neighbours cross, a range ends before a later one of its block starts. -/
theorem hi_le_of_settled (hp : ∀ r ∈ a :: bs, r.Pushed) (hsort : (a :: bs).Pairwise Before)
    (hlev : ∀ d ∈ a :: bs, d.ZeroPadded → ∃ c ∈ ps, SamePrefix d c ∧ c.ZeroPadded ∧
      c.level = d.level)
    (hset : Settled (a :: bs)) (hs : a.singlehost = false) (hc : c ∈ bs)
    (hblock : SameBlock ps a c) : a.hi ≤ c.lo := by
  induction bs generalizing a with
  | nil => cases hc
  | cons b bs ih =>
    obtain ⟨hall, hrest⟩ := List.pairwise_cons.mp hsort
    obtain ⟨hball, -⟩ := List.pairwise_cons.mp hrest
    have hab : Before a b := hall b (by simp)
    have hblock' : SameBlock ps a b := by
      rcases List.mem_cons.mp hc with rfl | hc
      · exact hblock
      · exact hblock.of_between hab (hball c hc)
    have hcompat := hblock'.compatible (hab.level_le hblock'.1) (hlev b (by simp))
    have hno : ¬ Crosses a b := hset.rel
    have hle : a.hi ≤ b.lo := by
      by_contra hgt
      exact hno ⟨hs, hblock'.1, by omega, hcompat⟩
    rcases List.mem_cons.mp hc with rfl | hc
    · exact hle
    · have hbs : b.singlehost = false := hblock'.1.2 ▸ hs
      have hbo := (hp b (by simp)).ordered hbs
      have hrec := ih (fun r hr => hp r (by simp [hr])) hrest (fun d hd => hlev d (by simp [hd]))
        hset.tail hbs hc (hblock'.symm.trans hblock)
      omega

end

/-! ## The parts of a split -/

theorem sharedNumbers_sorted (x m : Nat) : (sharedNumbers x m).Pairwise (· ≤ ·) := by
  have hhead : ∀ k y, y ∈ (if k > x then [k] else []) ++ (if k < m then [k] else []) → y = k := by
    intro k y hy
    rcases List.mem_append.mp hy with hy | hy <;> split at hy <;> simp_all
  rw [sharedNumbers, List.pairwise_flatMap]
  refine ⟨fun k _ => ?_, ?_⟩
  · apply List.pairwise_of_forall_mem_list
    intro y hy z hz
    rw [hhead k y hy, hhead k z hz]
  · have hlts : (List.range' x (m + 1 - x)).Pairwise (· < ·) := List.pairwise_lt_range' 1
    refine hlts.imp fun {k l} hlt y hy z hz => ?_
    rw [hhead k y hy, hhead l z hz]
    exact Nat.le_of_lt hlt

theorem mem_sharedNumbers {x m k : Nat} (h : k ∈ sharedNumbers x m) : x ≤ k ∧ k ≤ m := by
  obtain ⟨y, hy, hk⟩ := List.mem_flatMap.mp h
  have hrange := List.mem_range'_1.mp hy
  have hky : k = y := by
    rcases List.mem_append.mp hk with hk | hk <;> split at hk <;> simp_all
  omega

/-- The width of the parts of two ranges. -/
def splitWidth (a b : HostRange) : Nat := (hostrangeWidthCombine a b).2.1.width

/-- The first part, the upper bound of what is shared, and the last part. -/
def lowPart (a b : HostRange) : HostRange := { a with width := splitWidth a b, hi := b.lo }

def highPart (a b : HostRange) : HostRange :=
  { a with width := splitWidth a b, lo := min a.hi b.hi, hi := max a.hi b.hi }

def midParts (a b : HostRange) : List HostRange :=
  (sharedNumbers b.lo (min a.hi b.hi)).map fun k => hostrangeCreate a.pfx k k (splitWidth a b)

theorem splitRanges_eq (a b : HostRange) :
    splitRanges a b = (lowPart a b :: midParts a b) ++ [highPart a b] := rfl

theorem mem_midParts {a b p : HostRange} (h : p ∈ midParts a b) :
    ∃ k, b.lo ≤ k ∧ k ≤ min a.hi b.hi ∧ p = hostrangeCreate a.pfx k k (splitWidth a b) := by
  obtain ⟨k, hk, rfl⟩ := List.mem_map.mp h
  obtain ⟨h1, h2⟩ := mem_sharedNumbers hk
  exact ⟨k, h1, h2, rfl⟩

/-- Two ranges in order that cross. -/
structure Cut (a b : HostRange) : Prop where
  crosses : Crosses a b
  lower : a.Pushed
  upper : b.Pushed
  lo_le : a.lo ≤ b.lo

namespace Cut

variable {a b p : HostRange} (h : Cut a b)
include h

theorem single : a.singlehost = false := h.crosses.1

theorem single' : b.singlehost = false := h.crosses.2.1.2 ▸ h.crosses.1

theorem upper_le : b.lo ≤ b.hi := h.upper.ordered h.single'

theorem lo_lt : b.lo < a.hi := h.crosses.2.2.1

theorem hi_le : a.hi ≤ ulongMax ∧ b.hi ≤ ulongMax := by
  have hmax : ulongMax = 18446744073709551615 := rfl
  have h1 := h.lower.hi_lt
  have h2 := h.upper.hi_lt
  omega

/-- The common width leaves both levels as they were. -/
theorem level_eq : max (splitWidth a b) (ndigits a.lo) = a.level ∧
    max (splitWidth a b) (ndigits b.lo) = b.level := by
  obtain ⟨-, h1, h2, hw⟩ := hostrangeWidthCombine_spec a b
  have hwidth := hw h.crosses.2.2.2
  have hl1 := h1.sameKey.level
  have hl2 := h2.sameKey.level
  unfold HostRange.level at hl1 hl2 ⊢
  rw [h1.lo] at hl1
  rw [h2.lo, ← hwidth] at hl2
  exact ⟨hl1, hl2⟩

/-- What is known of each part. -/
theorem part (hp : p ∈ splitRanges a b) :
    SamePrefix a p ∧ p.Pushed ∧ p.width = splitWidth a b ∧ a.lo ≤ p.lo ∧
      p.lo ≤ min a.hi b.hi ∧ p.hi ≤ max a.hi b.hi := by
  obtain ⟨hs, hpfx, hw⟩ := mem_splitRanges h.single hp
  have hx := h.lo_lt
  have hlo := h.lo_le
  have hb := h.upper_le
  have h1 := h.lower.hi_lt
  have h2 := h.upper.hi_lt
  have hbounds : a.lo ≤ p.lo ∧ p.lo ≤ p.hi ∧ p.lo ≤ min a.hi b.hi ∧ p.hi ≤ max a.hi b.hi := by
    rw [splitRanges_eq] at hp
    rcases List.mem_append.mp hp with hp | hp
    · rcases List.mem_cons.mp hp with rfl | hp
      · simp only [lowPart]
        omega
      · obtain ⟨k, hk1, hk2, rfl⟩ := mem_midParts hp
        simp only [hostrangeCreate]
        omega
    · obtain rfl := List.mem_singleton.mp hp
      simp only [highPart]
      omega
  obtain ⟨hlow, hord, hmid, hhigh⟩ := hbounds
  exact ⟨⟨hpfx.symm, h.single.trans hs.symm⟩,
    ⟨.of_bounds hs (by omega) (by omega), fun _ => hord⟩, hw, hlow, hmid, hhigh⟩

theorem level_part (hp : p ∈ splitRanges a b) :
    p.level = max (splitWidth a b) (ndigits p.lo) := by
  obtain ⟨-, -, hw, -⟩ := h.part hp
  rw [HostRange.level, hw]

/-- All parts but the last end where the two ranges cease to overlap. -/
theorem hi_le_min (hp : p ∈ lowPart a b :: midParts a b) : p.hi ≤ min a.hi b.hi := by
  have hx := h.lo_lt
  have hb := h.upper_le
  rcases List.mem_cons.mp hp with rfl | hp
  · simp only [lowPart]
    omega
  · obtain ⟨k, hk1, hk2, rfl⟩ := mem_midParts hp
    exact hk2

theorem lowPart_key : SameKey a (lowPart a b) :=
  ⟨⟨rfl, rfl⟩, rfl, h.level_eq.1⟩

/-- A part starts where the upper range did. -/
theorem exists_upper_key : ∃ q ∈ splitRanges a b, SameKey b q := by
  have hsame := h.crosses.2.1
  have hx := h.lo_lt
  have hb := h.upper_le
  by_cases hlt : b.lo < min a.hi b.hi
  · refine ⟨hostrangeCreate a.pfx b.lo b.lo (splitWidth a b), ?_, ⟨hsame.1.symm, h.single'⟩, rfl,
      h.level_eq.2⟩
    rw [splitRanges_eq]
    apply List.mem_append_left
    apply List.mem_cons_of_mem
    apply List.mem_map.mpr
    refine ⟨b.lo, ?_, rfl⟩
    rw [sharedNumbers, List.mem_flatMap]
    exact ⟨b.lo, List.mem_range'_1.mpr (by omega), by simp; omega⟩
  · have heq : min a.hi b.hi = b.lo := by omega
    refine ⟨highPart a b, by rw [splitRanges_eq]; simp, ⟨hsame.1.symm, hsame.2.symm⟩, heq, ?_⟩
    have hlevel := h.level_eq.2
    rw [← heq] at hlevel
    exact hlevel

/-- A padded part has the level of a padded range it comes from. -/
theorem padded_part (hp : p ∈ splitRanges a b) (hpad : p.ZeroPadded) :
    (a.ZeroPadded ∧ a.level = p.level) ∨ b.ZeroPadded ∧ b.level = p.level := by
  have hlevel := h.level_part hp
  obtain ⟨h1, h2⟩ := h.level_eq
  have hcut : p.lo = a.lo ∨ b.lo ≤ p.lo := by
    rw [splitRanges_eq] at hp
    have hx := h.lo_lt
    have hb := h.upper_le
    rcases List.mem_append.mp hp with hp | hp
    · rcases List.mem_cons.mp hp with rfl | hp
      · exact .inl rfl
      · obtain ⟨k, hk1, -, rfl⟩ := mem_midParts hp
        exact .inr hk1
    · obtain rfl := List.mem_singleton.mp hp
      right
      show b.lo ≤ min a.hi b.hi
      omega
  unfold HostRange.ZeroPadded at hpad ⊢
  rcases hcut with heq | hle
  · left
    rw [heq] at hpad hlevel
    omega
  · right
    have hmono := ndigits_mono hle
    omega

/-- The parts are in order. -/
theorem splitRanges_sorted : (splitRanges a b).Pairwise Before := by
  have hlos : (splitRanges a b).Pairwise fun p q => p.lo ≤ q.lo := by
    have hx := h.lo_lt
    have hlo := h.lo_le
    have hb := h.upper_le
    rw [splitRanges_eq, List.pairwise_append, List.pairwise_cons]
    refine ⟨⟨fun p hp => ?_, ?_⟩, List.pairwise_singleton _ _, fun p hp q hq => ?_⟩
    · obtain ⟨k, hk, -, rfl⟩ := mem_midParts hp
      show a.lo ≤ k
      omega
    · rw [midParts, List.pairwise_map]
      exact sharedNumbers_sorted _ _
    · rw [List.mem_singleton.mp hq]
      show p.lo ≤ min a.hi b.hi
      exact (h.part (by rw [splitRanges_eq]; exact List.mem_append_left _ hp)).2.2.2.2.1
  refine hlos.imp_of_mem fun {p q} hp hq hle => ?_
  have hl1 := h.level_part hp
  have hl2 := h.level_part hq
  have hmono := ndigits_mono hle
  exact .inr ⟨(h.part hp).1.symm.trans (h.part hq).1, by omega⟩

end Cut

/-! ## Splits and blocks -/

/-- What two ranges share stays below the levels of later blocks and below the
largest number. -/
structure Clear (ps : List HostRange) (a b : HostRange) : Prop where
  below : ∀ c ∈ ps, SamePrefix a c → c.ZeroPadded → a.level < c.level →
    ndigits (min a.hi b.hi) < c.level
  top : min a.hi b.hi ≠ ulongMax

namespace Cut

variable {ps : List HostRange} {a b p x : HostRange} (h : Cut a b)
include h

theorem clear_of_tame (hblock : SameBlock ps a b) (ht : Tame ps a b) : Clear ps a b := by
  obtain ⟨hlow, htop⟩ := ht h.single hblock
  have hx := h.lo_lt
  have hlo := h.lo_le
  have hmax := h.hi_le
  exact ⟨hlow, htop (by omega) (by omega)⟩

/-- The parts stay in the block. -/
theorem sameBlock_part (hc : Clear ps a b) (hp : p ∈ splitRanges a b) : SameBlock ps a p := by
  obtain ⟨hs, -, -, hlow, hmid, -⟩ := h.part hp
  have hlevel := h.level_part hp
  have ha := h.level_eq.1
  have h1 := ndigits_mono hlow
  have h2 := ndigits_mono hmid
  refine ⟨hs, fun c hc' hsame hpad => ⟨fun hlt => ?_, fun hlt => by omega⟩⟩
  have hbelow := hc.below c hc' hsame hpad hlt
  omega

/-- A range is tame with every part exactly when it is with both ranges. -/
theorem tame_parts (hblock : SameBlock ps a b) (hc : Clear ps a b) :
    (∀ p ∈ splitRanges a b, Tame ps x p) ↔ Tame ps x a ∧ Tame ps x b := by
  have hx := h.lo_lt
  have hlo := h.lo_le
  have hb := h.upper_le
  have hmax := h.hi_le
  have htop := hc.top
  constructor
  · intro hall
    have hhigh : highPart a b ∈ splitRanges a b := by
      rw [splitRanges_eq]
      simp
    -- the last part reaches as far as both ranges
    have hone : ∀ r : HostRange, SameBlock ps a r → r.hi ≤ max a.hi b.hi → Tame ps x r := by
      intro r hr hle hs hxr
      have hxp := (hxr.trans hr.symm).trans (h.sameBlock_part hc hhigh)
      obtain ⟨hlow, hnot⟩ := hall _ hhigh hs hxp
      have hmin : min x.hi r.hi ≤ min x.hi (highPart a b).hi := by
        show min x.hi r.hi ≤ min x.hi (max a.hi b.hi)
        omega
      refine ⟨fun c hc' hsame hpad hlt => ?_, fun h1 _ h3 => ?_⟩
      · exact Nat.lt_of_le_of_lt (ndigits_mono hmin) (hlow c hc' hsame hpad hlt)
      · refine hnot h1 ?_ ?_
        · show min a.hi b.hi < ulongMax
          omega
        · show min x.hi (max a.hi b.hi) = ulongMax
          omega
    exact ⟨hone a (.refl ps a) (Nat.le_max_left _ _), hone b hblock (Nat.le_max_right _ _)⟩
  · rintro ⟨ha, hb'⟩ p hp hs hxp
    have hxa : SameBlock ps x a := hxp.trans (h.sameBlock_part hc hp).symm
    have hxb : SameBlock ps x b := hxa.trans hblock
    obtain ⟨hlow1, htop1⟩ := ha hs hxa
    obtain ⟨hlow2, htop2⟩ := hb' hs hxb
    obtain ⟨-, -, -, hple, hpmid, hphi⟩ := h.part hp
    refine ⟨fun c hc' hsame hpad hlt => ?_, fun h1 h2 h3 => ?_⟩
    · have hboth : min x.hi p.hi ≤ max (min x.hi a.hi) (min x.hi b.hi) := by omega
      have hd1 := hlow1 c hc' hsame hpad hlt
      have hd2 := hlow2 c hc' hsame hpad hlt
      rcases Nat.le_total (min x.hi a.hi) (min x.hi b.hi) with hle | hle
      · have := ndigits_mono (show min x.hi p.hi ≤ min x.hi b.hi by omega)
        omega
      · have := ndigits_mono (show min x.hi p.hi ≤ min x.hi a.hi by omega)
        omega
    · have hup : max a.hi b.hi = ulongMax := by omega
      rcases Nat.le_total b.hi a.hi with hle | hle
      · exact htop1 h1 (by omega) (by omega)
      · exact htop2 h1 (by omega) (by omega)

/-- The parts are tame with each other. -/
theorem tame_splitRanges (hc : Clear ps a b) : (splitRanges a b).Pairwise (Tame ps) := by
  have htop := hc.top
  have hmax := h.hi_le
  have hpair : ∀ p ∈ lowPart a b :: midParts a b, ∀ q, Tame ps p q := by
    intro p hp q hs hpq
    have hmin : min p.hi q.hi ≤ min a.hi b.hi :=
      Nat.le_trans (Nat.min_le_left _ _) (h.hi_le_min hp)
    have hmem : p ∈ splitRanges a b := by
      rw [splitRanges_eq]
      exact List.mem_append_left _ hp
    have hblock := h.sameBlock_part hc hmem
    refine ⟨fun c hc' hsame hpad hlt => ?_, fun _ _ h3 => by omega⟩
    have hac := hblock.1.trans hsame
    have hbelow := hc.below c hc' hac hpad ((hblock.2 c hc' hac hpad).mpr hlt)
    exact Nat.lt_of_le_of_lt (ndigits_mono hmin) hbelow
  rw [splitRanges_eq, List.pairwise_append]
  exact ⟨List.pairwise_of_forall_mem_list fun p hp q _ => hpair p hp q,
    List.pairwise_singleton _ _, fun p hp q _ => hpair p hp q⟩

end Cut

theorem Clear.tame {ps : List HostRange} {a b : HostRange} (h : Clear ps a b) : Tame ps a b :=
  fun _ _ => ⟨h.below, fun _ _ => h.top⟩

section

variable {ps as bs : List HostRange} {a b : HostRange}

theorem State.cut (h : State ps (as ++ a :: b :: bs)) (hc : Crosses a b) : Cut a b := by
  have hab : Before a b :=
    (List.pairwise_cons.mp (List.pairwise_append.mp h.sorted).2.1).1 b (by simp)
  exact ⟨hc, h.pushed a (by simp), h.pushed b (by simp), hab.lo_le hc.2.1 hc.2.2.2⟩

/-- A split leaves a list tame or not as it was. -/
theorem tame_split (h : Cut a b) (hblock : SameBlock ps a b) (hc : Clear ps a b) :
    (as ++ splitRanges a b ++ bs).Pairwise (Tame ps) ↔
      (as ++ a :: b :: bs).Pairwise (Tame ps) := by
  have hleft : ∀ x, (∀ p ∈ splitRanges a b, Tame ps x p) ↔ Tame ps x a ∧ Tame ps x b :=
    fun x => h.tame_parts hblock hc
  have hright : ∀ x, (∀ p ∈ splitRanges a b, Tame ps p x) ↔ Tame ps a x ∧ Tame ps b x := by
    intro x
    constructor
    · intro hall
      obtain ⟨h1, h2⟩ := (hleft x).mp fun p hp => (hall p hp).symm
      exact ⟨h1.symm, h2.symm⟩
    · rintro ⟨h1, h2⟩ p hp
      exact ((hleft x).mpr ⟨h1.symm, h2.symm⟩ p hp).symm
  have hsplit : as ++ a :: b :: bs = as ++ [a, b] ++ bs := by simp
  have hpair : [a, b].Pairwise (Tame ps) ↔ (splitRanges a b).Pairwise (Tame ps) := by
    refine iff_of_true ?_ (h.tame_splitRanges hc)
    simpa using hc.tame
  rw [hsplit]
  simp only [List.pairwise_append, hpair, List.mem_append, List.mem_cons, List.not_mem_nil,
    or_false, or_imp, forall_and, forall_eq]
  constructor
  · rintro ⟨⟨has, hmid, hcross⟩, hbs, hcross2, hmidbs⟩
    have h1 := fun x (hx : x ∈ as) => (hleft x).mp (hcross x hx)
    have h2 := fun y (hy : y ∈ bs) => (hright y).mp fun p hp => hmidbs p hp y hy
    exact ⟨⟨has, hmid, fun x hx => (h1 x hx).1, fun x hx => (h1 x hx).2⟩, hbs, hcross2,
      fun y hy => (h2 y hy).1, fun y hy => (h2 y hy).2⟩
  · rintro ⟨⟨has, hmid, ha, hb⟩, hbs, hcross2, ha2, hb2⟩
    exact ⟨⟨has, hmid, fun x hx => (hleft x).mpr ⟨ha x hx, hb x hx⟩⟩, hbs, hcross2,
      fun p hp y hy => (hright y).mpr ⟨ha2 y hy, hb2 y hy⟩ p hp⟩

end

section

variable {ps as bs : List HostRange} {a b : HostRange}

/-- A split keeps the levels of the padded ranges. -/
theorem SameLevels.split (h : Cut a b) (hl : SameLevels ps (as ++ a :: b :: bs)) :
    SameLevels ps (as ++ splitRanges a b ++ bs) := by
  have hmem : ∀ p ∈ splitRanges a b, p ∈ as ++ splitRanges a b ++ bs := fun p hp => by
    simp [hp]
  constructor
  · intro c hc hpad
    obtain ⟨d, hd, hs, hdp, hlevel⟩ := hl.fwd c hc hpad
    -- each of the two ranges left a part with its place in the order
    have hpart : ∀ q ∈ splitRanges a b, SameKey d q →
        ∃ e ∈ as ++ splitRanges a b ++ bs, SamePrefix c e ∧ e.ZeroPadded ∧ e.level = c.level := by
      intro q hq hk
      exact ⟨q, hmem q hq, hs.trans hk.samePrefix, hk.zeroPadded.mpr hdp, hk.level.trans hlevel⟩
    rcases List.mem_append.mp hd with hd | hd
    · exact ⟨d, by simp [hd], hs, hdp, hlevel⟩
    · rcases List.mem_cons.mp hd with rfl | hd
      · exact hpart _ (by rw [splitRanges_eq]; simp) h.lowPart_key
      · rcases List.mem_cons.mp hd with rfl | hd
        · obtain ⟨q, hq, hk⟩ := h.exists_upper_key
          exact hpart q hq hk
        · exact ⟨d, by simp [hd], hs, hdp, hlevel⟩
  · intro d hd hpad
    rcases List.mem_append.mp hd with hd | hd
    · rcases List.mem_append.mp hd with hd | hd
      · exact hl.bwd d (by simp [hd]) hpad
      · have hsame := (h.part hd).1
        rcases h.padded_part hd hpad with ⟨hap, hlevel⟩ | ⟨hbp, hlevel⟩
        · obtain ⟨c, hc, hs, hcp, hcl⟩ := hl.bwd a (by simp) hap
          exact ⟨c, hc, hsame.symm.trans hs, hcp, hcl.trans hlevel⟩
        · obtain ⟨c, hc, hs, hcp, hcl⟩ := hl.bwd b (by simp) hbp
          exact ⟨c, hc, (hsame.symm.trans h.crosses.2.1).trans hs, hcp, hcl.trans hlevel⟩
    · exact hl.bwd d (by simp [hd]) hpad

/-- The last part sorts before what comes after the two ranges, where those are
settled. -/
theorem State.highPart_before (h : State ps (as ++ a :: b :: bs)) (hcut : Cut a b)
    (hc : Clear ps a b) (hset : Settled (b :: bs)) {c : HostRange} (hmem : c ∈ bs) :
    Before (highPart a b) c := by
  have htail := (List.pairwise_append.mp h.sorted).2.1
  obtain ⟨hall, hrest⟩ := List.pairwise_cons.mp htail
  have hac : Before a c := hall c (by simp [hmem])
  have hbc : Before b c := (List.pairwise_cons.mp hrest).1 c hmem
  have hhigh : highPart a b ∈ splitRanges a b := by
    rw [splitRanges_eq]
    simp
  have hsame : SamePrefix a (highPart a b) := (hcut.part hhigh).1
  by_cases hs : SamePrefix a c
  · have hsb : SamePrefix b c := hcut.crosses.2.1.symm.trans hs
    have hlevel := hcut.level_part hhigh
    have hlo : (highPart a b).lo = min a.hi b.hi := rfl
    have hwidth := hcut.level_eq.1
    have hle := hac.level_le hs
    have hleb := hbc.level_le hsb
    have hblock := h.sameBlock hcut.crosses.2.1 hcut.crosses.2.2.2
    refine .inr ⟨hsame.symm.trans hs, ?_⟩
    by_cases hbl : SameBlock ps b c
    · -- a range of the block starts behind the upper of the two
      have hsub : ∀ r ∈ b :: bs, r ∈ as ++ a :: b :: bs := fun r hr =>
        List.mem_append_right as (List.mem_cons_of_mem a hr)
      have hend := hi_le_of_settled (fun r hr => h.pushed r (hsub r hr)) hrest
        (fun d hd => h.levels.bwd d (hsub d hd)) hset hcut.single' hmem hbl
      have hmono := @ndigits_mono (min a.hi b.hi) c.lo (by omega)
      have hcl : ndigits c.lo ≤ c.level := Nat.le_max_right _ _
      rw [hlevel, hlo]
      omega
    · -- another block starts with a padded range of a level between
      have hex : ∃ d ∈ ps, SamePrefix b d ∧ d.ZeroPadded ∧
          ¬ (b.level < d.level ↔ c.level < d.level) := by
        by_contra hno
        push Not at hno
        exact hbl ⟨hsb, hno⟩
      obtain ⟨d, hd, hsd, hdp, hiff⟩ := hex
      have hlt : b.level < d.level ∧ ¬ c.level < d.level := by
        by_contra hboth
        exact hiff (by omega)
      have had := hcut.crosses.2.1.trans hsd
      have haltd := (hblock.2 d hd had hdp).mpr hlt.1
      have hbelow := hc.below d hd had hdp haltd
      left
      rw [hlevel, hlo]
      omega
  · left
    rcases hac with hac | ⟨hs', -⟩
    · rw [← hsame.cmp_left]
      exact hac
    · exact absurd hs' hs

/-- A clear split leaves a list sorted. -/
theorem State.split (h : State ps (as ++ a :: b :: bs)) (hcut : Cut a b) (hc : Clear ps a b)
    (hset : Settled (b :: bs)) : State ps (as ++ splitRanges a b ++ bs) := by
  refine ⟨fun r hr => ?_, ?_, h.levels.split hcut⟩
  · rcases List.mem_append.mp hr with hr | hr
    · rcases List.mem_append.mp hr with hr | hr
      · exact h.pushed r (by simp [hr])
      · exact (hcut.part hr).2.1
    · exact h.pushed r (by simp [hr])
  · have hparts := hcut.splitRanges_sorted
    obtain ⟨has, htail, hcross⟩ := List.pairwise_append.mp h.sorted
    have hbs : bs.Pairwise Before :=
      (List.pairwise_cons.mp (List.pairwise_cons.mp htail).2).2
    rw [List.pairwise_append, List.pairwise_append]
    refine ⟨⟨has, hparts, fun x hx p hp => ?_⟩, hbs, fun x hx y hy => ?_⟩
    · have hxl : Before x (lowPart a b) :=
        ((SameKey.refl x).before hcut.lowPart_key).mpr (hcross x hx a (by simp))
      rw [splitRanges_eq, List.cons_append] at hp hparts
      rcases List.mem_cons.mp hp with rfl | hp
      · exact hxl
      · exact hxl.trans ((List.pairwise_cons.mp hparts).1 p hp)
    · rcases List.mem_append.mp hx with hx | hx
      · exact hcross x hx y (by simp [hy])
      · have hhigh := h.highPart_before hcut hc hset hy
        rw [splitRanges_eq] at hx hparts
        rcases List.mem_append.mp hx with hx | hx
        · have hlast := (List.pairwise_append.mp hparts).2.2 x hx _ (List.mem_singleton_self _)
          exact hlast.trans hhigh
        · rw [List.mem_singleton.mp hx]
          exact hhigh

end

end Slurm.Hosts
