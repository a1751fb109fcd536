import SlurmLite.Base.Run
import SlurmLite.Hostlist.Build

/-!
# Pushing names and lists

A run of `hostlist_push_host` and `hostlist_push_list` should put the pushed
names behind those of the list. Two things come in between.

* **Numbers**: `strtoul` clips the number of a host name (`hostRange_names_iff`).
* **Joins**: a range may be taken into the last one. That loses names where the
  range starts at 0 again behind the largest number, or one of the two has its
  bounds out of order (`JoinSafe`, `length_pushRange_iff`).
* **Runs**: `pushes_iff`: the names are kept exactly if no number is clipped and
  every join is safe.
-/

namespace Slurm.Hosts

open Base.Text Base.CLib Base.Run

/-! ## Arrays of ranges -/

/-- The slots in use hold the ranges `rs`; the others hold anything. -/
structure Hostlist.Slots (hl : Hostlist) (rs : List HostRange) : Prop where
  shape : ∃ rest n, hl = Hostlist.ofSlots rs rest n
  wf : ∀ r ∈ rs, r.Wf

theorem Hostlist.Slots.ranges {hl : Hostlist} {rs : List HostRange} (h : hl.Slots rs) :
    hl.ranges = some rs := by
  obtain ⟨⟨rest, n, rfl⟩, -⟩ := h
  have htake : (Hostlist.ofSlots rs rest n).hr.take rs.length = rs.map Slot.live := by
    simp [Hostlist.ofSlots]
  show ((Hostlist.ofSlots rs rest n).hr.take rs.length).mapM _ = some rs
  rw [htake]
  exact mapM_slots rs

theorem Hostlist.Slots.pushRange {hl : Hostlist} {rs : List HostRange} (h : hl.Slots rs)
    {r : HostRange} (hr : r.Wf) :
    ∃ hl' r', hostlistPushRange hl r = some (hl', r') ∧
      hl'.Slots (Slurm.Hosts.pushRange rs r) := by
  obtain ⟨⟨rest, n, rfl⟩, hwf⟩ := h
  obtain ⟨used, r', hpush⟩ := hostlistPushRange_ofSlots rs rest n r
  exact ⟨_, r', hpush, ⟨_, _, rfl⟩, pushRange_wf hwf hr⟩

theorem Hostlist.Slots.pushAll {hl : Hostlist} {rs ss : List HostRange} (h : hl.Slots rs)
    (hss : ∀ s ∈ ss, s.Wf) :
    ∃ hl', Slurm.Hosts.pushAll hl ss = some hl' ∧ hl'.Slots (pushRanges rs ss) := by
  induction ss generalizing hl rs with
  | nil => exact ⟨hl, rfl, h⟩
  | cons s ss ih =>
    obtain ⟨hl₁, r', hpush, h₁⟩ := h.pushRange (hss s List.mem_cons_self)
    obtain ⟨hl₂, hrest, h₂⟩ := ih h₁ fun u hu => hss u (List.mem_cons_of_mem _ hu)
    refine ⟨hl₂, ?_, h₂⟩
    rw [Slurm.Hosts.pushAll, hpush]
    exact hrest

/-! ## Runs of pushes -/

/-- What is pushed: a host name, or another list. -/
inductive Push where
  | host (str : List Char)
  | list (h2 : Hostlist)

/-- One push. -/
def pushStep (hl : Hostlist) : Push → Option Hostlist
  | .host str => hostlistPushHost hl str
  | .list h2 => hostlistPushList hl h2

/-- The ranges that are pushed. -/
def Push.ranges : Push → List HostRange
  | .host str => [hostRange str]
  | .list h2 => h2.ranges.getD []

/-- The names that are to be pushed. -/
def Push.names : Push → List (List Char)
  | .host str => [str]
  | .list h2 => Slurm.Hosts.names (h2.ranges.getD [])

/-- The result of the pushes expands to the names of the list and then those
pushed. -/
def PushesKept (hl : Hostlist) (pushes : List Push) : Prop :=
  ∃ hl' rs rs', run pushStep hl pushes = some hl' ∧ hl.ranges = some rs ∧
    hl'.ranges = some rs' ∧ names rs' = names rs ++ pushes.flatMap Push.names

/-- A list that is pushed is an array of ranges. -/
def Push.Wf : Push → Prop
  | .host _ => True
  | .list h2 => ∃ rs, h2.Slots rs

theorem Push.Wf.ranges {p : Push} (h : p.Wf) : ∀ r ∈ p.ranges, r.Wf := by
  cases p with
  | host str =>
    intro r hr
    rw [List.mem_singleton.mp hr]
    exact (hostRange_pushed str).toWf
  | list h2 =>
    obtain ⟨rs, hrs⟩ := h
    intro r hr
    rw [Push.ranges, hrs.ranges] at hr
    exact hrs.wf r hr

theorem pushStep_slots {hl : Hostlist} {rs : List HostRange} (h : hl.Slots rs) {p : Push}
    (hp : p.Wf) : ∃ hl', pushStep hl p = some hl' ∧ hl'.Slots (pushRanges rs p.ranges) := by
  cases p with
  | host str =>
    obtain ⟨hl', r', hpush, h'⟩ := h.pushRange (hostRange_pushed str).toWf
    exact ⟨hl', by rw [pushStep, hostlistPushHost, hpush]; rfl, h'⟩
  | list h2 =>
    obtain ⟨hl', hpush, h'⟩ := h.pushAll (Push.Wf.ranges hp)
    obtain ⟨ss, hss⟩ := hp
    refine ⟨hl', ?_, h'⟩
    rw [Push.ranges, hss.ranges] at hpush
    rw [pushStep, hostlistPushList, hss.ranges]
    exact hpush

/-- No push is undefined, and the ranges are those pushed one after the other. -/
theorem run_slots {hl : Hostlist} {rs : List HostRange} (h : hl.Slots rs) {pushes : List Push}
    (hp : ∀ p ∈ pushes, p.Wf) :
    ∃ hl', run pushStep hl pushes = some hl' ∧
      hl'.Slots (pushRanges rs (pushes.flatMap Push.ranges)) := by
  induction pushes generalizing hl rs with
  | nil => exact ⟨hl, rfl, h⟩
  | cons p pushes ih =>
    obtain ⟨hl₁, hstep, h₁⟩ := pushStep_slots h (hp p List.mem_cons_self)
    obtain ⟨hl₂, hrest, h₂⟩ := ih h₁ fun q hq => hp q (List.mem_cons_of_mem _ hq)
    refine ⟨hl₂, ?_, ?_⟩
    · rw [run, hstep]
      exact hrest
    · rw [List.flatMap_cons, pushRanges_append]
      exact h₂

/-! ## Numbers -/

/-- A host name is pushed unchanged exactly if its number fits. -/
theorem hostRange_names_iff {s : List Char} :
    (hostRange s).names = [s] ↔ value (tail s) ≤ ulongMax := by
  refine ⟨fun h => ?_, hostRange_names⟩
  by_contra hlarge
  have ht : tail s ≠ [] := by
    intro ht
    rw [ht] at hlarge
    exact hlarge (Nat.zero_le _)
  rw [hostRange_eq, if_neg ht, Nat.min_eq_right (by omega)] at h
  have hname : stem s ++ padded (tail s).length ulongMax = s := by
    simpa [HostRange.names, HostRange.numbers, HostRange.nameAt, hostrangeCreate] using h
  have htail : padded (tail s).length ulongMax = tail s := by
    apply List.append_cancel_left
    rw [hname, stem_append_tail]
  have hvalue := congrArg value htail
  rw [value_padded] at hvalue
  omega

theorem length_hostRange_names (s : List Char) : (hostRange s).names.length = 1 := by
  rw [hostRange_eq, length_names]
  split
  · rfl
  · rw [if_neg (by simp [hostrangeCreate])]
    simp [hostrangeCreate]

/-- The names of the ranges pushed are those that are to be pushed. -/
theorem names_pushed_iff {pushes : List Push} :
    names (pushes.flatMap Push.ranges) = pushes.flatMap Push.names ↔
      ∀ str, .host str ∈ pushes → value (tail str) ≤ ulongMax := by
  induction pushes with
  | nil => simp
  | cons p pushes ih =>
    rw [List.flatMap_cons, List.flatMap_cons, names_append]
    have hlen : (names p.ranges).length = p.names.length := by
      cases p with
      | host str =>
        rw [Push.ranges, names_cons, names_nil, List.append_nil]
        exact length_hostRange_names str
      | list h2 => rfl
    have hfirst : names p.ranges = p.names ↔
        ∀ str, p = .host str → value (tail str) ≤ ulongMax := by
      cases p with
      | host str =>
        rw [Push.ranges, names_cons, names_nil, List.append_nil, Push.names,
          hostRange_names_iff]
        simp
      | list h2 => exact iff_of_true rfl (by simp)
    have hsplit : names p.ranges ++ names (pushes.flatMap Push.ranges) =
        p.names ++ pushes.flatMap Push.names ↔
        names p.ranges = p.names ∧
          names (pushes.flatMap Push.ranges) = pushes.flatMap Push.names :=
      ⟨fun h => List.append_inj h hlen, fun h => by rw [h.1, h.2]⟩
    rw [hsplit, hfirst, ih]
    constructor
    · rintro ⟨hp, hrest⟩ str hmem
      rcases List.mem_cons.mp hmem with h | h
      · exact hp str h.symm
      · exact hrest str h
    · intro h
      exact ⟨fun str hp => h str (hp ▸ List.mem_cons_self),
        fun str hmem => h str (List.mem_cons_of_mem _ hmem)⟩

/-! ## Joins -/

/-- The range `r` that continues `t` does not start at 0 again, and both have
their bounds in order, or both stand for nothing. -/
def JoinSafe (t r : HostRange) : Prop :=
  r.lo ≠ 0 ∧ (t.lo ≤ r.lo ∧ r.lo ≤ r.hi + 1 ∨ r.lo ≤ t.lo ∧ r.hi + 1 ≤ r.lo)

instance (t r : HostRange) : Decidable (JoinSafe t r) := inferInstanceAs (Decidable (_ ∧ _))

/-- An unsafe join loses names. -/
theorem length_joined_iff {t r : HostRange} (h : Joins t r) (ht : t.Wf) (hr : r.Wf) :
    (joined t r).names.length ≤ t.names.length + r.names.length ∧
      ((joined t r).names.length = t.names.length + r.names.length ↔ JoinSafe t r) := by
  have hrs := h.not_single ht hr
  have hts : t.singlehost = false := h.1.2.trans hrs
  have hjs : (joined t r).singlehost = false := by rw [joined_singlehost, hts]
  have hhi := h.follows hr
  have htlo := ht.lo_lt
  have hmax : ulongMax = 18446744073709551615 := rfl
  have hjhi : (joined t r).hi = r.hi := rfl
  rw [length_names, length_names, length_names, hrs, hts, hjs, joined_lo, hjhi, JoinSafe]
  simp only [Bool.false_eq_true, if_false]
  by_cases h0 : r.lo = 0
  · rw [if_pos h0] at hhi
    omega
  · rw [if_neg h0] at hhi
    omega

/-- The last range of a list is joined safely, if it is joined. -/
def SafePush (rs : List HostRange) (r : HostRange) : Prop :=
  ∀ t ∈ rs.getLast?, Joins t r → JoinSafe t r

/-- A push adds the names of the range, or there are fewer names than these. -/
theorem names_pushRange_cases {rs : List HostRange} {r : HostRange} (hrs : ∀ s ∈ rs, s.Wf)
    (hr : r.Wf) :
    (SafePush rs r ∧ names (pushRange rs r) = names rs ++ r.names) ∨
      (¬ SafePush rs r ∧
        (names (pushRange rs r)).length < (names rs).length + r.names.length) := by
  rcases rs.eq_nil_or_concat' with rfl | ⟨ss, t, rfl⟩
  · refine Or.inl ⟨(fun t ht => by cases ht), ?_⟩
    rw [pushRange_nil, hostrangeCopy_eq hr]
    simp
  · have ht : t.Wf := hrs t (by simp)
    have hlast : SafePush (ss ++ [t]) r ↔ (Joins t r → JoinSafe t r) := by
      simp [SafePush]
    rw [hlast, pushRange_append]
    by_cases hj : Joins t r
    · rw [pushTail_of_joins hj]
      obtain ⟨hle, hiff⟩ := length_joined_iff hj ht hr
      by_cases hsafe : JoinSafe t r
      · refine Or.inl ⟨fun _ => hsafe, ?_⟩
        have hnames := names_joined_of_lo hj ht hr hsafe.1 hsafe.2
        simp [hnames]
      · refine Or.inr ⟨fun h => hsafe (h hj), ?_⟩
        have hne := mt hiff.mp hsafe
        simp only [names_append, names_cons, names_nil, List.append_nil, List.length_append]
        omega
    · refine Or.inl ⟨fun h => absurd h hj, ?_⟩
      rw [pushTail_of_not hj hr]
      simp

/-- Every one of the ranges `ss` is pushed safely, onto what the ranges before it
leave of `rs`. -/
def SafePushes : List HostRange → List HostRange → Prop
  | _, [] => True
  | rs, s :: ss => SafePush rs s ∧ SafePushes (pushRange rs s) ss

/-- Pushing ranges adds their names exactly if every push is safe, and makes
fewer names otherwise. -/
theorem names_pushRanges_cases {rs ss : List HostRange} (hrs : ∀ s ∈ rs, s.Wf)
    (hss : ∀ s ∈ ss, s.Wf) :
    (SafePushes rs ss ∧ names (pushRanges rs ss) = names rs ++ names ss) ∨
      (¬ SafePushes rs ss ∧
        (names (pushRanges rs ss)).length < (names rs).length + (names ss).length) := by
  induction ss generalizing rs with
  | nil => exact Or.inl ⟨trivial, by simp⟩
  | cons s ss ih =>
    have hs := hss s List.mem_cons_self
    have hrest := ih (pushRange_wf hrs hs) fun u hu => hss u (List.mem_cons_of_mem _ hu)
    rw [pushRanges_cons, names_cons, List.length_append]
    obtain ⟨hone, hn⟩ | ⟨hone, hn⟩ := names_pushRange_cases hrs hs
    · obtain ⟨hall, hn'⟩ | ⟨hall, hn'⟩ := hrest
      · exact Or.inl ⟨⟨hone, hall⟩, by rw [hn', hn, List.append_assoc]⟩
      · refine Or.inr ⟨fun h => hall h.2, ?_⟩
        rw [hn, List.length_append] at hn'
        omega
    · refine Or.inr ⟨fun h => hone h.1, ?_⟩
      obtain ⟨-, hn'⟩ | ⟨-, hn'⟩ := hrest
      · rw [hn', List.length_append]
        omega
      · omega

/-! ## Together -/

theorem length_pushed (pushes : List Push) :
    (names (pushes.flatMap Push.ranges)).length = (pushes.flatMap Push.names).length := by
  induction pushes with
  | nil => rfl
  | cons p pushes ih =>
    rw [List.flatMap_cons, List.flatMap_cons, names_append, List.length_append,
      List.length_append, ih]
    cases p with
    | host str =>
      rw [Push.ranges, names_cons, names_nil, List.append_nil, length_hostRange_names]
      rfl
    | list h2 => rfl

/-- The pushes in terms of the ranges. -/
theorem pushesKept_iff {hl : Hostlist} {rs : List HostRange} (h : hl.Slots rs)
    {pushes : List Push} (hp : ∀ p ∈ pushes, p.Wf) :
    PushesKept hl pushes ↔
      names (pushRanges rs (pushes.flatMap Push.ranges)) =
        names rs ++ pushes.flatMap Push.names := by
  obtain ⟨hl', hrun, h'⟩ := run_slots h hp
  constructor
  · rintro ⟨hl₁, rs₁, rs₂, hrun₁, hrs₁, hrs₂, hnames⟩
    obtain rfl := Option.some.inj (hrun.symm.trans hrun₁)
    obtain rfl := Option.some.inj (h.ranges.symm.trans hrs₁)
    obtain rfl := Option.some.inj (h'.ranges.symm.trans hrs₂)
    exact hnames
  · exact fun hnames => ⟨hl', rs, _, hrun, h.ranges, h'.ranges, hnames⟩

/-- A run of pushes keeps all names as they are exactly if the number of every
host name fits, and every range that is joined to the last one is joined
safely. -/
theorem pushes_iff {hl : Hostlist} {rs : List HostRange} (h : hl.Slots rs) {pushes : List Push}
    (hp : ∀ p ∈ pushes, p.Wf) :
    PushesKept hl pushes ↔
      (∀ str, .host str ∈ pushes → value (tail str) ≤ ulongMax) ∧
        SafePushes rs (pushes.flatMap Push.ranges) := by
  have hwf : ∀ r ∈ pushes.flatMap Push.ranges, r.Wf := by
    intro r hr
    obtain ⟨p, hmem, hrp⟩ := List.mem_flatMap.mp hr
    exact (hp p hmem).ranges r hrp
  rw [pushesKept_iff h hp, ← names_pushed_iff]
  obtain ⟨hsafe, hn⟩ | ⟨hsafe, hn⟩ := names_pushRanges_cases h.wf hwf
  · rw [hn, List.append_cancel_left_eq]
    exact ⟨fun heq => ⟨heq, hsafe⟩, fun heq => heq.1⟩
  · refine iff_of_false (fun heq => ?_) fun h => hsafe h.2
    rw [heq, List.length_append, length_pushed] at hn
    exact Nat.lt_irrefl _ hn

/-- Two host names behind `a[1-2]`, of which the first continues the range. -/
theorem pushes_iff_two :
    PushesKept (Hostlist.ofSlots [hostrangeCreate ['a'] 1 2 1] [] 2)
      [.host "a3".toList, .host "b07".toList] := by
  refine (@pushes_iff _ [hostrangeCreate ['a'] 1 2 1] ⟨⟨[], 2, rfl⟩, ?_⟩ _ ?_).mpr ⟨?_, ?_⟩
  · intro r hr
    rw [List.mem_singleton.mp hr]
    exact (hostrangeCreate_pushed (by decide) (by decide)).toWf
  · intro p hp
    rcases List.mem_pair.mp hp with rfl | rfl <;> exact trivial
  · intro str hstr
    rcases List.mem_pair.mp hstr with h | h <;> cases h <;> decide
  · refine ⟨?_, ?_, trivial⟩ <;> intro t ht <;> cases ht <;> decide

/-- A number past the largest one is changed. -/
theorem not_pushes_clipped :
    ¬ PushesKept hostlistNew [.host "a18446744073709551616".toList] := by
  have hslots : hostlistNew.Slots [] :=
    ⟨⟨List.replicate hostlistChunk .null, 0, rfl⟩, fun r hr => by cases hr⟩
  rw [pushesKept_iff hslots (fun p hp => by rw [List.mem_singleton.mp hp]; exact trivial)]
  show names [hostrangeCopy (hostRange "a18446744073709551616".toList)] = _ → False
  rw [hostrangeCopy_eq (hostRange_pushed _).toWf, names_cons, names_nil, List.append_nil]
  intro h
  have hfits := hostRange_names_iff.mp h
  exact absurd hfits (by decide)

end Slurm.Hosts
