import SlurmLite.Hostlist.Ops

/-!
# A list taken host by host

What a caller sees that shifts hosts off a list until none is left, or walks a
list with `hostlist_next`.

* **Shifting** (`drain_perm_iff`): the shifted names are the expansion exactly
  when the list is `Whole`: the hosts can be counted, no range of several hosts
  ends at the largest number, and every number fits the text it is printed into.
* **Walking** (`walk_eq_names`): `hostlist_next` prints into a shorter text.
-/

namespace Slurm.Hosts

open Base.Text Base.CLib

/-! ## The places of a list -/

/-- The places of the expansion: a range and one of its numbers. -/
def places (rs : List HostRange) : List (HostRange × Nat) :=
  rs.flatMap fun r => r.numbers.map fun k => (r, k)

/-- The name at a place. -/
def placeName (p : HostRange × Nat) : List Char :=
  if p.1.singlehost then p.1.pfx else p.1.nameAt p.2

theorem HostRange.Wf.numbers_single {r : HostRange} (h : r.Wf) (hs : r.singlehost = true) :
    r.numbers = [0] := by
  obtain ⟨hlo, hhi, -⟩ := h.single hs
  rw [HostRange.numbers, hlo, hhi]
  rfl

theorem names_eq_places {rs : List HostRange} (h : ∀ r ∈ rs, r.Wf) :
    names rs = (places rs).map placeName := by
  rw [names, places, List.map_flatMap]
  refine List.flatMap_congr fun r hr => ?_
  rw [List.map_map]
  cases hs : r.singlehost with
  | true =>
    rw [(h r hr).numbers_single hs, HostRange.names, if_pos hs]
    simp [placeName, hs]
  | false =>
    rw [HostRange.names, hs, if_neg (by simp)]
    refine List.map_congr_left fun k _ => ?_
    simp [placeName, hs]

theorem mem_places {rs : List HostRange} {p : HostRange × Nat} :
    p ∈ places rs ↔ p.1 ∈ rs ∧ p.2 ∈ p.1.numbers := by
  rw [places, List.mem_flatMap]
  constructor
  · rintro ⟨r, hr, hp⟩
    obtain ⟨k, hk, rfl⟩ := List.mem_map.mp hp
    exact ⟨hr, hk⟩
  · exact fun ⟨hr, hk⟩ => ⟨p.1, hr, List.mem_map.mpr ⟨p.2, hk, rfl⟩⟩

/-! ## Shifting -/

/-- The hosts `hostlist_shift` returns until the list is empty. -/
def drain : Nat → Hostlist → Option (List (List Char))
  | 0, _ => none
  | fuel + 1, hl =>
    match hostlistShift hl with
    | none => none
    | some (none, _) => some []
    | some (some name, hl) => (drain fuel hl).map (name :: ·)

/-- The name `hostrange_shift` returns for a place. -/
def shiftName (p : HostRange × Nat) : List Char :=
  (placeName p).take (p.1.pfx.length + p.1.width + 15)

theorem hostrangeShift_fst {r : HostRange} (ho : r.Ordered) (hf : r.names.length < 2147483648) :
    (hostrangeShift r).1 = some (shiftName (r, r.lo)) := by
  cases hs : r.singlehost with
  | true =>
    have hlen : r.pfx.length ≤ r.pfx.length + r.width + 15 := by omega
    rw [hostrangeShift, if_pos hs, shiftName, placeName, if_pos hs, List.take_of_length_le hlen]
  | false =>
    have hpos : 0 < hostrangeCount r := by
      rw [hostrangeCount_eq_length ho hf]
      exact names_length_pos ho
    rw [hostrangeShift, hs, if_neg (by simp), if_pos hpos, shiftName, placeName, hs,
      if_neg (by simp), HostRange.nameAt]

/-- Lists that can be taken apart host by host. -/
structure Whole (rs : List HostRange) : Prop where
  fits : (names rs).length < 2147483648
  top : ∀ r ∈ rs, ¬ r.TopCut r.lo
  prints : ∀ r ∈ rs, r.singlehost = false → ndigits r.hi ≤ r.width + 15

theorem Whole.sound {rs : List HostRange} (h : Whole rs) (hok : ∀ r ∈ rs, r.Ok)
    (ho : ∀ r ∈ rs, r.Ordered) : Sound rs := ⟨hok, ho, h.fits⟩

/-- A place that is printed whole. -/
theorem shiftName_eq {r : HostRange} {k : Nat} (hk : k ∈ r.numbers)
    (h : r.singlehost = false → ndigits r.hi ≤ r.width + 15) :
    shiftName (r, k) = placeName (r, k) := by
  rw [shiftName]
  refine List.take_of_length_le ?_
  rw [placeName]
  cases hs : r.singlehost with
  | true =>
    simp only [if_true]
    omega
  | false =>
    have hhi : k ≤ r.hi := by
      obtain ⟨h1, h2⟩ := List.mem_range'_1.mp hk
      omega
    have hdigits := ndigits_mono hhi
    have hwide := h hs
    simp only [Bool.false_eq_true, if_false, HostRange.nameAt, List.length_append,
      length_padded]
    omega

theorem lo_mem_numbers {r : HostRange} (hr : r.Wf) (ho : r.Ordered) : r.lo ∈ r.numbers := by
  rw [HostRange.numbers, List.mem_range'_1]
  cases hs : r.singlehost with
  | true =>
    obtain ⟨hlo, hhi, -⟩ := hr.single hs
    omega
  | false =>
    have := ho hs
    omega

theorem names_cons_lo {r : HostRange} (hr : r.Wf) (ho : r.Ordered) (bs : List HostRange) :
    (names (r :: bs)).head? = some (placeName (r, r.lo)) := by
  have hnums : r.numbers = r.lo :: r.numbers.tail := by
    have hmem := lo_mem_numbers hr ho
    rw [HostRange.numbers, List.mem_range'_1] at hmem
    obtain ⟨m, hm⟩ := Nat.exists_eq_succ_of_ne_zero (by omega : r.hi + 1 - r.lo ≠ 0)
    rw [HostRange.numbers, hm, List.range'_succ]
    rfl
  rw [names_cons, HostRange.names, placeName]
  split
  · rfl
  · rw [hnums]
    rfl

/-- The ranges of a list without its first number. -/
theorem mem_without_lo {r s : HostRange} {bs : List HostRange} (h : s ∈ r.without r.lo ++ bs) :
    s ∈ bs ∨ r.lo < r.hi ∧ s = { r with lo := r.lo + 1 } := by
  rcases List.mem_append.mp h with h | h
  · right
    unfold HostRange.without at h
    split at h
    · cases h
    · rw [if_neg (Nat.lt_irrefl _), List.nil_append] at h
      split at h
      next hlt => exact ⟨hlt, List.mem_singleton.mp h⟩
      next => cases h
  · exact Or.inl h

theorem not_topCut_without {r : HostRange} {bs : List HostRange}
    (h : ∀ s ∈ r :: bs, ¬ s.TopCut s.lo) : ∀ s ∈ r.without r.lo ++ bs, ¬ s.TopCut s.lo := by
  intro s hs
  rcases mem_without_lo hs with hs | ⟨hlt, rfl⟩
  · exact h s (List.mem_cons_of_mem _ hs)
  · exact fun hc => h r (by simp) ⟨hc.1, rfl, hlt, hc.2.2.2⟩

theorem Whole.shift {r : HostRange} {bs : List HostRange} (h : Whole (r :: bs))
    (hs : Sound (r :: bs)) : Whole (r.without r.lo ++ bs) := by
  refine ⟨hs.shift.1.fits, not_topCut_without h.top, fun s hs => ?_⟩
  rcases mem_without_lo hs with hs | ⟨-, rfl⟩
  · exact h.prints s (List.mem_cons_of_mem _ hs)
  · exact h.prints r (by simp)

/-- `hostlist_shift` prints the first place and leaves the others. -/
theorem hostlistShift_head {r : HostRange} {bs : List HostRange} (hs : Sound (r :: bs))
    (htop : ¬ r.TopCut r.lo) (free : Nat) :
    ∃ free', hostlistShift (Hostlist.ofRanges (r :: bs) free (names (r :: bs)).length) =
      some (some (shiftName (r, r.lo)), Hostlist.ofRanges (r.without r.lo ++ bs) free'
        (names (r.without r.lo ++ bs)).length) := by
  have ho : r.Ordered := hs.ordered r (by simp)
  have hf : r.names.length < 2147483648 :=
    Nat.lt_of_le_of_lt (length_names_le_of_mem (by simp)) hs.fits
  have hpos := names_length_pos ho
  have hlen : (names (r :: bs)).length = r.names.length + (names bs).length := by
    rw [names_cons, List.length_append]
  have hcount : ((names (r :: bs)).length : Int) - 1 = (names (r.without r.lo ++ bs)).length := by
    rw [hs.shift.2, List.length_tail]
    omega
  obtain ⟨free', hshift⟩ := @hostlistShift_cons r bs (hs.ok r (by simp)) ho hf htop free
    (names (r :: bs)).length (by omega)
  rw [hostrangeShift_fst ho hf, hcount] at hshift
  exact ⟨free', hshift⟩

/-- `hostlist_shift` returns the first name of the expansion and leaves the rest. -/
theorem Whole.hostlistShift {rs : List HostRange} (h : Whole rs) (hs : Sound rs) {name : List Char}
    {ns : List (List Char)} (hns : names rs = name :: ns) (free : Nat) :
    ∃ rs' free', Slurm.Hosts.hostlistShift (Hostlist.ofRanges rs free (names rs).length) =
        some (some name, Hostlist.ofRanges rs' free' (names rs').length) ∧
      Whole rs' ∧ Sound rs' ∧ names rs' = ns := by
  rcases rs with _ | ⟨r, bs⟩
  · cases hns
  have ho : r.Ordered := hs.ordered r (by simp)
  have hok : r.Ok := hs.ok r (by simp)
  have hrest : names (r.without r.lo ++ bs) = ns := by
    rw [hs.shift.2, hns]
    rfl
  have hname : shiftName (r, r.lo) = name := by
    have hhead := names_cons_lo hok.toWf ho bs
    rw [hns, List.head?_cons, Option.some.injEq] at hhead
    rw [hhead, shiftName_eq (lo_mem_numbers hok.toWf ho) (h.prints r (by simp))]
  obtain ⟨free', hshift⟩ := hostlistShift_head hs (h.top r (by simp)) free
  rw [hname] at hshift
  exact ⟨_, free', hshift, h.shift hs, hs.shift.1, hrest⟩

/-- The places of a list are its first place and those of the list without it. -/
theorem map_shiftName_cons {r : HostRange} (bs : List HostRange) (hr : r.Wf) (ho : r.Ordered) :
    (places (r :: bs)).map shiftName =
      shiftName (r, r.lo) :: (places (r.without r.lo ++ bs)).map shiftName := by
  have hcons : places (r :: bs) = r.numbers.map (fun k => (r, k)) ++ places bs := rfl
  have happ : places (r.without r.lo ++ bs) = places (r.without r.lo) ++ places bs :=
    List.flatMap_append
  rw [hcons, happ, List.map_append, List.map_append, ← List.cons_append]
  congr 1
  cases hs : r.singlehost with
  | true =>
    obtain ⟨hlo, -, -⟩ := hr.single hs
    rw [hr.numbers_single hs, HostRange.without, if_pos hs, hlo]
    rfl
  | false =>
    have hle := ho hs
    have hno : ¬ r.singlehost = true := by simp [hs]
    have hcut : r.hi + 1 - r.lo = (r.hi - r.lo) + 1 := by omega
    rw [HostRange.numbers, hcut, List.range'_succ, HostRange.without, if_neg hno,
      if_neg (Nat.lt_irrefl _), List.nil_append]
    split
    next hlt =>
      have hrest : r.hi + 1 - (r.lo + 1) = r.hi - r.lo := by omega
      have hone : places [{ r with lo := r.lo + 1 }] =
          (List.range' (r.lo + 1) (r.hi - r.lo)).map fun k => ({ r with lo := r.lo + 1 }, k) := by
        rw [places, List.flatMap_singleton, HostRange.numbers, hrest]
      rw [hone, List.map_cons, List.map_cons, List.map_map, List.map_map]
      rfl
    next hlt =>
      have hrest : r.hi - r.lo = 0 := by omega
      rw [hrest]
      rfl

/-- A list drains to its printed places. -/
theorem drain_sound {rs : List HostRange} (hs : Sound rs) (htop : ∀ r ∈ rs, ¬ r.TopCut r.lo)
    (free : Nat) {fuel : Nat} (hfuel : (names rs).length < fuel) :
    drain fuel (Hostlist.ofRanges rs free (names rs).length) =
      some ((places rs).map shiftName) := by
  induction fuel generalizing rs free with
  | zero => omega
  | succ fuel ih =>
    rw [drain]
    rcases rs with _ | ⟨r, bs⟩
    · rfl
    · have ho : r.Ordered := hs.ordered r (by simp)
      have hpos := names_length_pos ho
      obtain ⟨free', hshift⟩ := hostlistShift_head hs (htop r (by simp)) free
      have hlen : (names (r.without r.lo ++ bs)).length < fuel := by
        rw [hs.shift.2, List.length_tail]
        have hcons : (names (r :: bs)).length = r.names.length + (names bs).length := by
          rw [names_cons, List.length_append]
        omega
      rw [hshift, map_shiftName_cons bs (hs.ok r (by simp)).toWf ho]
      simp only
      rw [ih hs.shift.1 (not_topCut_without htop) free' hlen]
      rfl

theorem Whole.map_shiftName {rs : List HostRange} (h : Whole rs) (hok : ∀ r ∈ rs, r.Ok) :
    (places rs).map shiftName = names rs := by
  rw [names_eq_places fun r hr => (hok r hr).toWf]
  refine List.map_congr_left fun p hp => ?_
  obtain ⟨hmem, hnum⟩ := mem_places.mp hp
  exact shiftName_eq hnum (h.prints p.1 hmem)

/-! ## Lists that are not whole -/

theorem nhosts_hostlistShift {hl hl' : Hostlist} {name : List Char}
    (h : hostlistShift hl = some (some name, hl')) :
    0 < hl.nhosts ∧ hl'.nhosts = hl.nhosts - 1 := by
  unfold hostlistShift at h
  split at h
  next hpos =>
    obtain ⟨r, -, hr⟩ := Option.map_eq_some_iff.mp h
    simp only at hr
    split at hr
    · obtain ⟨-, rfl⟩ := Prod.mk.inj hr
      exact ⟨hpos, rfl⟩
    · obtain ⟨-, rfl⟩ := Prod.mk.inj hr
      exact ⟨hpos, rfl⟩
  next => cases h

/-- No more hosts are shifted than are counted. -/
theorem length_drain {fuel : Nat} {hl : Hostlist} {ns : List (List Char)}
    (h : drain fuel hl = some ns) : (ns.length : Int) ≤ max hl.nhosts 0 := by
  induction fuel generalizing hl ns with
  | zero => cases h
  | succ fuel ih =>
    rw [drain] at h
    split at h
    · cases h
    · obtain rfl := Option.some.inj h
      simp
    next name hl' hshift =>
      obtain ⟨ms, hms, rfl⟩ := Option.map_eq_some_iff.mp h
      obtain ⟨hpos, hnext⟩ := nhosts_hostlistShift hshift
      have hlen := ih hms
      rw [List.length_cons]
      omega

/-- A range of several hosts that ends at the largest number is dropped whole. -/
theorem hostlistShift_top {r : HostRange} (bs : List HostRange) (htop : r.TopCut r.lo) (free : Nat)
    {n : Int} (hn : 0 < n) :
    hostlistShift (Hostlist.ofRanges (r :: bs) free n) =
      some ((hostrangeShift r).1, Hostlist.ofRanges bs (free + 1) (n - 1)) := by
  have hrange : (Hostlist.ofRanges (r :: bs) free n).range 0 = some r :=
    @ofRanges_range [] _ _ _ _
  have hempty : hostrangeEmpty (hostrangeShift r).2 = true := by
    have hhi : (hostrangeShift r).2.hi = r.hi := by
      unfold hostrangeShift
      split
      · rfl
      · split <;> rfl
    rw [hostrangeEmpty_iff, hhi]
    exact Or.inr htop.2.2.2
  have hset := setSlot_ofRanges [] bs r (hostrangeShift r).2 free (n - 1)
  have hdel := hostlistDeleteRange_ofRanges [] bs (hostrangeShift r).2 free (n - 1)
  rw [hostlistShift, ofRanges_nhosts, if_pos hn, hrange, Option.map_some, if_pos hempty]
  simp only [List.nil_append, List.length_nil] at hset hdel
  rw [← hdel, ← hset]
  rfl

/-- A list that counts more hosts than it holds, at once or after a range is
dropped, ends in a shift from no range. -/
theorem drain_excess {rs : List HostRange} (hok : ∀ r ∈ rs, r.Ok) (ho : ∀ r ∈ rs, r.Ordered)
    (hf : (names rs).length < 2147483648) {n : Int} (fuel free : Nat)
    (h : (names rs).length < n ∨ (names rs).length = n ∧ ∃ r ∈ rs, r.TopCut r.lo) :
    drain fuel (Hostlist.ofRanges rs free n) = none := by
  induction fuel generalizing rs free n with
  | zero => rfl
  | succ fuel ih =>
    rw [drain]
    rcases rs with _ | ⟨r, bs⟩
    · have hn : 0 < n := by
        rcases h with h | ⟨-, r, hr, -⟩
        · exact Int.lt_of_le_of_lt (Int.natCast_nonneg _) h
        · cases hr
      have hshift : hostlistShift (Hostlist.ofRanges [] free n) = none := by
        rw [hostlistShift, ofRanges_nhosts, if_pos hn]
        cases free <;> rfl
      rw [hshift]
    · have hro : r.Ordered := ho r (by simp)
      have hlen : (names (r :: bs)).length = r.names.length + (names bs).length := by
        rw [names_cons, List.length_append]
      have hpos := names_length_pos hro
      have hn : 0 < n := by omega
      have hrf : r.names.length < 2147483648 := by omega
      by_cases htop : r.TopCut r.lo
      · have htwo : 2 ≤ r.names.length := by
          rw [length_names, htop.1]
          have := htop.2.2.1
          simp only [Bool.false_eq_true, if_false]
          omega
        rw [hostlistShift_top bs htop free hn, hostrangeShift_fst hro hrf]
        simp only
        rw [ih (fun s hs => hok s (by simp [hs])) (fun s hs => ho s (by simp [hs])) (by omega)
          (free + 1) (Or.inl (by omega))]
        rfl
      · have hs : Sound (r :: bs) := ⟨hok, ho, hf⟩
        have hrest : (names (r.without r.lo ++ bs)).length = (names (r :: bs)).length - 1 := by
          rw [hs.shift.2, List.length_tail]
        obtain ⟨free', hshift⟩ := hostlistShift_cons bs (hok r (by simp)) hro hrf htop free hn
        rw [hshift, hostrangeShift_fst hro hrf]
        simp only
        -- the excess of the count, or the range that is cut, stays behind the first host
        have hnext : (names (r.without r.lo ++ bs)).length < n - 1 ∨
            (names (r.without r.lo ++ bs)).length = n - 1 ∧
              ∃ s ∈ r.without r.lo ++ bs, s.TopCut s.lo := by
          rcases h with h | ⟨h, s, hs', hc⟩
          · left
            omega
          · right
            refine ⟨by omega, s, ?_, hc⟩
            rcases List.mem_cons.mp hs' with rfl | hs'
            · exact absurd hc htop
            · exact List.mem_append_right _ hs'
        rw [ih hs.shift.1.ok hs.shift.1.ordered hs.shift.1.fits free' hnext]
        rfl

theorem drain_mono {fuel fuel' : Nat} (hle : fuel ≤ fuel') {hl : Hostlist}
    {ns : List (List Char)} (h : drain fuel hl = some ns) : drain fuel' hl = some ns := by
  induction fuel generalizing fuel' hl ns with
  | zero => cases h
  | succ fuel ih =>
    obtain ⟨fuel', rfl⟩ := Nat.exists_eq_succ_of_ne_zero (by omega : fuel' ≠ 0)
    rw [drain] at h ⊢
    split at h
    · cases h
    · exact h
    next name hl' _ =>
      obtain ⟨ms, hms, rfl⟩ := Option.map_eq_some_iff.mp h
      rw [ih (Nat.le_of_succ_le_succ hle) hms]
      rfl

/-- Printed places that are the names, in any order, are printed whole. -/
theorem prints_of_perm {rs : List HostRange} (hok : ∀ r ∈ rs, r.Ok)
    (hperm : ((places rs).map shiftName).Perm (names rs)) :
    ∀ r ∈ rs, r.singlehost = false → r.lo ≤ r.hi → ndigits r.hi ≤ r.width + 15 := by
  intro r hr hs hle
  by_contra hlong
  have hsum := (hperm.map List.length).sum_eq
  rw [names_eq_places fun r hr => (hok r hr).toWf, List.map_map, List.map_map] at hsum
  refine absurd hsum (Nat.ne_of_lt (List.sum_lt_sum _ _ (fun p _ => ?_) ⟨(r, r.hi), ?_, ?_⟩))
  · simp only [Function.comp, shiftName, List.length_take]
    exact Nat.min_le_right _ _
  · refine mem_places.mpr ⟨hr, ?_⟩
    show r.hi ∈ List.range' r.lo (r.hi + 1 - r.lo)
    rw [List.mem_range'_1]
    omega
  · simp only [Function.comp, shiftName, List.length_take, placeName, hs, Bool.false_eq_true,
      if_false, HostRange.nameAt, List.length_append, length_padded]
    omega

/-- Shifting a list until it is empty returns the hosts it stands for exactly
when the list is whole. -/
theorem drain_perm_iff {hl : Hostlist} {rs : List HostRange} (h : Holds hl rs)
    (ho : ∀ r ∈ rs, r.Ordered) :
    (∃ fuel ns, drain fuel hl = some ns ∧ ns.Perm (names rs)) ↔ Whole rs := by
  obtain ⟨⟨free, rfl⟩, hok⟩ := h
  constructor
  · rintro ⟨fuel, ns, hdrain, hperm⟩
    have hlen := length_drain hdrain
    rw [ofRanges_nhosts, hperm.length_eq] at hlen
    have hf : (names rs).length < 2147483648 := by
      have := int32_lt (hosts rs)
      omega
    have hs : Sound rs := ⟨hok, ho, hf⟩
    have hcount : int32 (hosts rs) = (names rs).length := by
      rw [hs.hosts_eq, int32_of_range (by omega) (by omega)]
    rw [hcount] at hdrain
    have htop : ∀ r ∈ rs, ¬ r.TopCut r.lo := by
      intro r hr hc
      rw [drain_excess hok ho hf fuel free (Or.inr ⟨rfl, r, hr, hc⟩)] at hdrain
      cases hdrain
    have hmore := drain_mono (Nat.le_add_right fuel ((names rs).length + 1)) hdrain
    rw [drain_sound hs htop free (by omega)] at hmore
    obtain rfl := Option.some.inj hmore
    exact ⟨hf, htop, fun r hr hs' => prints_of_perm hok hperm r hr hs' (ho r hr hs')⟩
  · intro hw
    have hs := hw.sound hok ho
    have hcount : int32 (hosts rs) = (names rs).length := by
      rw [hs.hosts_eq, int32_of_range (by have := hs.fits; omega) (by have := hs.fits; omega)]
    have hdrain := @drain_sound rs hs hw.top free ((names rs).length + 1) (by omega)
    rw [hw.map_shiftName hok, ← hcount] at hdrain
    exact ⟨_, names rs, hdrain, List.Perm.refl _⟩

/-! ## Walking -/

/-- `MAXHOSTNAMELEN`. -/
def maxHostNameLen : Nat := 64

/-- The name `hostlist_next` returns for a place, printed into
`MAXHOSTNAMELEN + 15` characters; `none` where a longer prefix leaves a negative
size for the number, which is then written behind the buffer. -/
def nextName (p : HostRange × Nat) : Option (List Char) :=
  if p.1.singlehost = false ∧ maxHostNameLen + 15 < p.1.pfx.length then none
  else some ((placeName p).take (maxHostNameLen + 14))

/-- The names `hostlist_next` returns, from the first place to the last. -/
def walk (hl : Hostlist) : Option (List (List Char)) :=
  hl.ranges.bind fun rs => (places rs).mapM nextName

theorem mapM_nextName {ps : List (HostRange × Nat)} {ws : List (List Char)}
    (h : ps.mapM nextName = some ws) :
    ws = (ps.map placeName).map (·.take (maxHostNameLen + 14)) := by
  induction ps generalizing ws with
  | nil =>
    obtain rfl := Option.some.inj h
    rfl
  | cons p ps ih =>
    rw [List.mapM_cons, Option.bind_eq_bind, Option.bind_eq_some_iff] at h
    obtain ⟨w, hw, h⟩ := h
    obtain ⟨ws', hws, h⟩ := Option.bind_eq_some_iff.mp h
    obtain rfl := Option.some.inj h
    unfold nextName at hw
    split at hw
    · cases hw
    · obtain rfl := Option.some.inj hw
      rw [ih hws]
      rfl

/-- What is walked are the first characters of the names. -/
theorem walk_eq_take {hl : Hostlist} {rs : List HostRange} (hrs : hl.ranges = some rs)
    (hok : ∀ r ∈ rs, r.Ok) {ws : List (List Char)} (h : walk hl = some ws) :
    ws = (names rs).map (·.take (maxHostNameLen + 14)) := by
  rw [walk, hrs, Option.bind_some] at h
  rw [names_eq_places fun r hr => (hok r hr).toWf]
  exact mapM_nextName h

theorem pfx_length_le {p : HostRange × Nat} (hs : p.1.singlehost = false) :
    p.1.pfx.length ≤ (placeName p).length := by
  rw [placeName, hs, if_neg (by simp), HostRange.nameAt, List.length_append]
  omega

theorem mapM_nextName_of_short {ps : List (HostRange × Nat)}
    (h : ∀ p ∈ ps, (placeName p).length ≤ maxHostNameLen + 14) :
    ps.mapM nextName = some (ps.map placeName) := by
  induction ps with
  | nil => rfl
  | cons p ps ih =>
    have hp := h p List.mem_cons_self
    have hname : nextName p = some (placeName p) := by
      rw [nextName, if_neg, List.take_of_length_le hp]
      rintro ⟨hs, hlong⟩
      have := pfx_length_le hs
      omega
    rw [List.mapM_cons, hname, ih fun q hq => h q (List.mem_cons_of_mem _ hq)]
    rfl

/-- Names that fit are walked as they are. -/
theorem walk_eq_names {hl : Hostlist} {rs : List HostRange} (hrs : hl.ranges = some rs)
    (hok : ∀ r ∈ rs, r.Ok) (h : ∀ name ∈ names rs, name.length ≤ maxHostNameLen + 14) :
    walk hl = some (names rs) := by
  have hnames := names_eq_places fun r hr => (hok r hr).toWf
  rw [walk, hrs, Option.bind_some, hnames]
  refine mapM_nextName_of_short fun p hp => h _ ?_
  rw [hnames]
  exact List.mem_map_of_mem hp

end Slurm.Hosts
