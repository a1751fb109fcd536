import SlurmLite.Hostlist.Ops

/-!
# Removing a group of ranges

`hostlist_pop_range` and `hostlist_shift_range` move the last or first group of
ranges to a temporary list and subtract what that list counts.

* **Joins** (`Unjoined`): pushed onto the temporary list, neighbours may join.
  Only when none do does the temporary list count the ranges that were moved.
* **Slots**: `hostlist_shift_range` frees the slots of the group and moves the
  other ranges down over them; with fewer ranges left than moved, freed slots
  stay behind.
-/

namespace Slurm.Hosts

open Base.Text Base.CLib Base.Buffer

/-! ## Groups whose ranges do not join -/

/-- No range of the list continues the one before it. -/
def Unjoined (rs : List HostRange) : Prop := rs.IsChain fun t r => ¬ Joins t r

instance (rs : List HostRange) : Decidable (Unjoined rs) :=
  inferInstanceAs (Decidable (rs.IsChain _))

theorem pushRange_unjoined {rs : List HostRange} {r : HostRange} (hr : r.Wf)
    (h : Unjoined (rs ++ [r])) : pushRange rs r = rs ++ [r] := by
  rcases rs.eq_nil_or_concat' with rfl | ⟨as, t, rfl⟩
  · rw [pushRange_nil, hostrangeCopy_eq hr]
    rfl
  · have hno : ¬ Joins t r := by
      rw [Unjoined, List.append_assoc] at h
      exact (List.isChain_append.mp h).2.1.rel
    rw [pushRange_append, pushTail_of_not hno hr]
    simp

theorem pushRanges_unjoined {ss : List HostRange} :
    ∀ {rs : List HostRange}, (∀ s ∈ ss, s.Wf) → Unjoined (rs ++ ss) →
      pushRanges rs ss = rs ++ ss := by
  induction ss with
  | nil => exact fun _ _ => (List.append_nil _).symm
  | cons s ss ih =>
    intro rs hw h
    have hassoc : rs ++ s :: ss = rs ++ [s] ++ ss := by simp
    rw [hassoc] at h ⊢
    have hfirst : Unjoined (rs ++ [s]) := (List.isChain_append.mp h).1
    rw [pushRanges_cons, pushRange_unjoined (hw s (by simp)) hfirst]
    exact ih (fun u hu => hw u (by simp [hu])) h

/-! ## The last group -/

/-- The ranges before the last group. -/
def beforeTail (rs : List HostRange) : List HostRange :=
  rs.dropLast.rdropWhile fun r => hostrangeWithinRange rs.getLast? (some r)

/-- The last group: the last range and those before it with its prefix. -/
def tailGroup (rs : List HostRange) : List HostRange :=
  (rs.dropLast.rtakeWhile fun r => hostrangeWithinRange rs.getLast? (some r)) ++
    rs.getLast?.toList

theorem beforeTail_append_tailGroup (rs : List HostRange) :
    beforeTail rs ++ tailGroup rs = rs := by
  rcases rs.eq_nil_or_concat' with rfl | ⟨as, t, rfl⟩
  · rfl
  · simp [beforeTail, tailGroup, ← List.append_assoc, List.rdropWhile_append_rtakeWhile]

theorem deref_ofRanges (as : List HostRange) {bs : List HostRange} {r : HostRange} {free : Nat}
    {n : Int} :
    (Hostlist.ofRanges (as ++ r :: bs) free n).deref as.length = some (some r) := by
  rw [Hostlist.deref, ofRanges_slot]

/-- The search of `hostlist_pop_range` stops where the last group starts. -/
theorem tailStart_ofRanges {tail : Option HostRange} {free : Nat} {n : Int} :
    ∀ as bs : List HostRange,
    tailStart (Hostlist.ofRanges (as ++ bs) free n) tail as.length =
      some (as.rdropWhile fun r => hostrangeWithinRange tail (some r)).length := by
  intro as
  induction as using List.reverseRecOn with
  | nil => exact fun _ => rfl
  | append_singleton as r ih =>
    intro bs
    have hassoc : as ++ [r] ++ bs = as ++ r :: bs := by simp
    rw [List.length_append, List.length_singleton, tailStart, hassoc, deref_ofRanges]
    simp only [Option.bind_eq_bind, Option.bind_some]
    by_cases hw : hostrangeWithinRange tail (some r) = true
    · rw [if_pos hw, ih, List.rdropWhile_concat_pos
        (fun r => hostrangeWithinRange tail (some r)) as r hw]
    · rw [if_neg hw, List.rdropWhile_concat_neg
        (fun r => hostrangeWithinRange tail (some r)) as r hw]
      simp

/-- The list with other slots. -/
def Hostlist.withSlots (hl : Hostlist) (slots : List Slot) : Hostlist :=
  { hl with hr := slots }

@[simp] theorem withSlots_nranges (hl : Hostlist) (l : List Slot) :
    (hl.withSlots l).nranges = hl.nranges := rfl

@[simp] theorem withSlots_nhosts (hl : Hostlist) (l : List Slot) :
    (hl.withSlots l).nhosts = hl.nhosts := rfl

@[simp] theorem withSlots_withSlots (hl : Hostlist) (l l' : List Slot) :
    (hl.withSlots l).withSlots l' = hl.withSlots l' := rfl

/-- The second loop of `hostlist_pop_range` pushes the ranges and clears their
slots. -/
theorem popLoop_eq (xs ys : List Slot) :
    ∀ (g : List HostRange) (done : Nat) (hltmp tmp' hl : Hostlist),
    hl.hr = xs ++ List.replicate done Slot.null ++ g.map Slot.live ++ ys →
    pushAll hltmp g = some tmp' →
    popLoop (List.range' (xs.length + done) g.length) hltmp hl =
      some (tmp', hl.withSlots (xs ++ List.replicate (done + g.length) Slot.null ++ ys)) := by
  intro g
  induction g with
  | nil =>
    intro done hltmp tmp' hl hhr hpush
    obtain rfl := Option.some.inj hpush
    rw [List.map_nil, List.append_nil] at hhr
    rw [List.length_nil, List.range'_zero, popLoop, Nat.add_zero, ← hhr]
    rfl
  | cons r g ih =>
    intro done hltmp tmp' hl hhr hpush
    have hlen : (xs ++ List.replicate done Slot.null).length = xs.length + done := by simp
    have hslot : hl.range (xs.length + done) = some r := by
      rw [Hostlist.range, Hostlist.slot, hhr, List.append_assoc, List.getD_eq_getElem?_getD,
        List.getElem?_append_right (by omega), hlen, Nat.sub_self]
      rfl
    rw [pushAll] at hpush
    cases hp : hostlistPushRange hltmp r with
    | none => rw [hp] at hpush; cases hpush
    | some p =>
      rw [hp] at hpush
      have hset : hl.hr.set (xs.length + done) .null =
          xs ++ List.replicate (done + 1) .null ++ g.map Slot.live ++ ys := by
        rw [hhr, List.append_assoc, List.set_append_right _ _ (by omega), hlen,
          Nat.sub_self, List.replicate_succ']
        simp
      have hmove : moveRange .null hltmp hl (xs.length + done) =
          some (p.1, hl.setSlot (xs.length + done) .null) := by
        rw [moveRange, hslot, Option.bind_eq_bind, Option.bind_some, hp]
        rfl
      rw [List.length_cons, List.range'_succ, popLoop, hmove, Option.bind_eq_bind,
        Option.bind_some, Nat.add_assoc]
      have hrest := ih (done + 1) p.1 tmp' (hl.setSlot (xs.length + done) .null) hset hpush
      refine hrest.trans ?_
      simp [Hostlist.setSlot, Hostlist.withSlots, Nat.add_comm, Nat.add_left_comm]

theorem rangedCopy_ofRanges (rs : List HostRange) (free : Nat) (n : Int) :
    ∃ buf, rangedCopy (Hostlist.ofRanges rs free n) = some buf := by
  obtain ⟨ret, b', h, -⟩ := hostlistRangedString_spec (ofRanges_ranges rs free n)
    (n := maxHostRangeLen) (b := List.replicate (maxHostRangeLen + 1) nul) (by simp)
  exact ⟨cstr b', by rw [rangedCopy, h]; rfl⟩

/-- What is left of the host count when the hosts of `g` are subtracted. -/
theorem int32_sub_hosts (as g bs : List HostRange) (h : Sound (as ++ g ++ bs)) :
    int32 ((names (as ++ g ++ bs)).length - int32 (hosts g)) = (names (as ++ bs)).length := by
  have hfits := h.fits
  have hg := (Sound.of_append _ _ _ h).hosts_eq
  simp only [names_append, List.length_append] at hfits ⊢
  rw [int32_sub_int32, hg, int32_of_range (by omega) (by omega)]
  omega

/-- `hostlist_pop_range` removes the last group, when none of its ranges join. -/
theorem hostlistPopRange_ofRanges {rs : List HostRange} (h : Sound rs) (free : Nat)
    (hjoin : Unjoined (tailGroup rs)) :
    ∃ buf free', hostlistPopRange (Hostlist.ofRanges rs free (names rs).length) =
        some (buf, Hostlist.ofRanges (beforeTail rs) free' (names (beforeTail rs)).length) := by
  rcases rs.eq_nil_or_concat' with rfl | ⟨as, t, rfl⟩
  · exact ⟨none, free, rfl⟩
  · have hsplit := beforeTail_append_tailGroup (as ++ [t])
    have hbt : beforeTail (as ++ [t]) =
        as.rdropWhile fun r => hostrangeWithinRange (some t) (some r) := by
      simp [beforeTail]
    have hw : ∀ s ∈ tailGroup (as ++ [t]), s.Wf := by
      intro s hs
      refine (h.ok s ?_).toWf
      rw [← hsplit]
      exact List.mem_append_right _ hs
    obtain ⟨k, hpush⟩ := pushAll_ofRanges (tailGroup (as ++ [t])) [] 16 0
    rw [@pushRanges_unjoined _ [] hw hjoin, Int.zero_add, List.nil_append] at hpush
    obtain ⟨buf, hbuf⟩ := rangedCopy_ofRanges (tailGroup (as ++ [t])) k
      (int32 (hosts (tailGroup (as ++ [t]))))
    have hidx : (as ++ [t]).length - 1 = as.length := by simp
    have hcount : (as ++ [t]).length - (beforeTail (as ++ [t])).length =
        (tailGroup (as ++ [t])).length := by
      have hl := congrArg List.length hsplit
      rw [List.length_append] at hl
      omega
    have hloop := popLoop_eq ((beforeTail (as ++ [t])).map Slot.live)
      (List.replicate free Slot.null) (tailGroup (as ++ [t])) 0 hostlistNew _
      (Hostlist.ofRanges (as ++ [t]) free (names (as ++ [t])).length)
      (by
        conv_lhs => rw [← hsplit]
        simp [Hostlist.ofRanges]) hpush
    refine ⟨some buf, free + (tailGroup (as ++ [t])).length, ?_⟩
    rw [hostlistPopRange, ofRanges_nranges, if_neg (by simp), hidx, deref_ofRanges]
    simp only [Option.bind_eq_bind, Option.bind_some]
    rw [tailStart_ofRanges, ← hbt]
    simp only [Option.bind_some]
    rw [hcount]
    simp only [List.length_map, Nat.add_zero, Nat.zero_add] at hloop
    rw [hloop]
    simp only [Option.bind_some, hbuf, subtractTmp, Hostlist.withSlots, ofRanges_nranges,
      ofRanges_nhosts]
    have hnhosts := int32_sub_hosts (beforeTail (as ++ [t])) (tailGroup (as ++ [t])) []
      (by rwa [List.append_nil, hsplit])
    rw [List.append_nil, List.append_nil, hsplit] at hnhosts
    have hlen := congrArg List.length hsplit
    rw [List.length_append] at hlen
    rw [hnhosts, show (as ++ [t]).length - (tailGroup (as ++ [t])).length =
      (beforeTail (as ++ [t])).length by omega]
    refine congrArg (fun l => some (some buf, l)) ?_
    refine Hostlist.eq_ofRanges ?_ rfl rfl ?_
    · simp only [Hostlist.ofRanges]
      omega
    · rw [List.append_assoc, List.replicate_append_replicate, Nat.add_comm free]

/-! ## The first group -/

/-- `s` is printed in one group with `r`. -/
abbrev inGroup (r s : HostRange) : Bool := hostrangeWithinRange (some r) (some s)

/-- The first group: the first range and those after it with its prefix. -/
def headGroup : List HostRange → List HostRange
  | [] => []
  | r :: rest => r :: rest.takeWhile (inGroup r)

/-- The ranges after the first group. -/
def afterHead : List HostRange → List HostRange
  | [] => []
  | r :: rest => rest.dropWhile (inGroup r)

theorem headGroup_append_afterHead (rs : List HostRange) :
    headGroup rs ++ afterHead rs = rs := by
  cases rs with
  | nil => rfl
  | cons r rest => simp [headGroup, afterHead]

/-- The range at the front goes to the temporary list; its slot is freed. -/
theorem moveRange_freed {done ss : List HostRange} {s : HostRange} {ys : List Slot}
    {hl : Hostlist} (hhr : hl.hr = List.replicate done.length Slot.freed ++
      (s :: ss).map Slot.live ++ ys) (hw : s.Wf) (hjoin : Unjoined (done ++ [s]))
    (k : Nat) (m : Int) :
    ∃ k', moveRange .freed (Hostlist.ofRanges done k (int32 m)) hl done.length =
      some (Hostlist.ofRanges (done ++ [s]) k' (int32 (m + hostrangeCount s)),
        hl.withSlots (List.replicate (done ++ [s]).length Slot.freed ++
          ss.map Slot.live ++ ys)) := by
  have hslot : hl.range done.length = some s := by
    rw [Hostlist.range, Hostlist.slot, hhr, List.append_assoc, List.getD_eq_getElem?_getD,
      List.getElem?_append_right (by simp)]
    simp
  have hset : hl.hr.set done.length .freed =
      List.replicate (done ++ [s]).length Slot.freed ++ ss.map Slot.live ++ ys := by
    rw [hhr, List.append_assoc, List.set_append_right _ _ (by simp), List.length_append,
      List.length_singleton, List.replicate_succ']
    simp
  obtain ⟨k', r', hpush⟩ := hostlistPushRange_ofRanges done k (int32 m) s
  rw [pushRange_unjoined hw hjoin, int32_int32_add] at hpush
  refine ⟨k', ?_⟩
  rw [moveRange, hslot, Option.bind_eq_bind, Option.bind_some, hpush, Option.bind_eq_bind,
    Option.bind_some, Hostlist.setSlot, hset]
  rfl

theorem shiftLoop_stop {fuel i : Nat} {hltmp hl tmp' hl' : Hostlist}
    (h : moveRange .freed hltmp hl i = some (tmp', hl')) (hn : ¬ i + 1 < hl'.nranges) :
    shiftLoop (fuel + 1) i hltmp hl = some (i + 1, tmp', hl') := by
  rw [shiftLoop, h, Option.bind_eq_bind, Option.bind_some]
  exact if_neg hn

theorem shiftLoop_next {fuel i : Nat} {hltmp hl tmp' hl' : Hostlist}
    {first next : Option HostRange}
    (h : moveRange .freed hltmp hl i = some (tmp', hl')) (hn : i + 1 < hl'.nranges)
    (h0 : tmp'.deref 0 = some first) (h1 : hl'.deref (i + 1) = some next) :
    shiftLoop (fuel + 1) i hltmp hl =
      if hostrangeWithinRange first next then shiftLoop fuel (i + 1) tmp' hl'
      else some (i + 1, tmp', hl') := by
  rw [shiftLoop, h, Option.bind_eq_bind, Option.bind_some]
  simp only [if_pos hn, h0, h1]
  rfl

/-- The first loop of `hostlist_shift_range` pushes the group and leaves freed
slots. -/
theorem shiftLoop_eq (first : HostRange) (ys : List Slot) :
    ∀ (ss : List HostRange) (s : HostRange) (done g rest : List HostRange) (fuel k : Nat)
      (m : Int) (hl : Hostlist),
    hl.hr = List.replicate done.length Slot.freed ++ (s :: ss).map Slot.live ++ ys →
    hl.nranges = done.length + 1 + ss.length → ss.length < fuel →
    (done ++ [s]).head? = some first → (∀ r ∈ s :: ss, r.Wf) →
    g = s :: (ss.takeWhile (inGroup first)) →
    rest = (ss.dropWhile (inGroup first)) →
    Unjoined (done ++ g) →
    ∃ k', shiftLoop fuel done.length (Hostlist.ofRanges done k (int32 m)) hl =
      some ((done ++ g).length, Hostlist.ofRanges (done ++ g) k' (int32 (m + hosts g)),
        hl.withSlots (List.replicate (done ++ g).length Slot.freed ++
          rest.map Slot.live ++ ys)) := by
  intro ss
  induction ss with
  | nil =>
    intro s done g rest fuel k m hl hhr hn hfuel hfirst hw hg hrest hjoin
    obtain ⟨fuel, rfl⟩ := Nat.exists_eq_add_of_lt hfuel
    rw [List.takeWhile_nil] at hg
    rw [List.dropWhile_nil] at hrest
    subst hg hrest
    obtain ⟨k', hmove⟩ := moveRange_freed hhr (hw s (by simp)) hjoin k m
    refine ⟨k', ?_⟩
    rw [shiftLoop_stop hmove (by simp [Hostlist.withSlots, hn]), hosts_cons, hosts_nil]
    simp
  | cons next ss ih =>
    intro s done g rest fuel k m hl hhr hn hfuel hfirst hw hg hrest hjoin
    obtain ⟨fuel, rfl⟩ : ∃ f, fuel = f + 1 := ⟨fuel - 1, by simp at hfuel; omega⟩
    have hjoin1 : Unjoined (done ++ [s]) := by
      rw [hg, ← List.singleton_append, ← List.append_assoc] at hjoin
      exact (List.isChain_append.mp hjoin).1
    obtain ⟨k', hmove⟩ := moveRange_freed hhr (hw s (by simp)) hjoin1 k m
    -- the first range moved decides about the next one
    have h0 : (Hostlist.ofRanges (done ++ [s]) k' (int32 (m + hostrangeCount s))).deref 0 =
        some (some first) := by
      cases hd : done ++ [s] with
      | nil => simp at hd
      | cons a as =>
        rw [hd] at hfirst
        obtain rfl := Option.some.inj hfirst
        exact deref_ofRanges []
    have hlen : (done ++ [s]).length = done.length + 1 := by simp
    have h1 : (hl.withSlots (List.replicate (done ++ [s]).length Slot.freed ++
        (next :: ss).map Slot.live ++ ys)).deref (done.length + 1) = some (some next) := by
      rw [Hostlist.deref, Hostlist.slot, Hostlist.withSlots, List.append_assoc,
        List.getD_eq_getElem?_getD,
        List.getElem?_append_right (by simp)]
      simp
    rw [shiftLoop_next hmove
      (by simp only [Hostlist.withSlots, hn, List.length_cons]; omega) h0 h1]
    by_cases hw1 : inGroup first next = true
    · rw [if_pos hw1]
      rw [List.takeWhile_cons_of_pos hw1] at hg
      rw [List.dropWhile_cons_of_pos hw1] at hrest
      obtain ⟨k'', hloop⟩ := ih next (done ++ [s])
        (next :: ss.takeWhile (inGroup first)) rest
        fuel k' (m + hostrangeCount s)
        (hl.withSlots (List.replicate (done ++ [s]).length Slot.freed ++
          (next :: ss).map Slot.live ++ ys)) rfl
        (by simp only [Hostlist.withSlots, hn, hlen, List.length_cons]; omega)
        (by simp only [List.length_cons] at hfuel; omega)
        (by
          rw [List.head?_append, hfirst]
          rfl)
        (fun r hr => hw r (by simp [hr])) rfl hrest (by rw [hg] at hjoin; simpa using hjoin)
      refine ⟨k'', ?_⟩
      rw [← hlen, hloop, hg, hosts_cons (r := s)]
      simp [Int.add_assoc]
    · rw [if_neg hw1]
      rw [List.takeWhile_cons_of_neg hw1] at hg
      rw [List.dropWhile_cons_of_neg hw1] at hrest
      subst hg hrest
      refine ⟨k', ?_⟩
      rw [hosts_cons, hosts_nil, hlen]
      simp

/-- Moving the ranges `ys` down over a block of `k` slots: the ranges come first,
and then what the NULLs they leave did not reach of the block. -/
theorem moveDown_eq {k : Nat} (zs : List Slot) :
    ∀ (ys xs as : List Slot) (hl : Hostlist), xs.length = k → 0 < k →
    hl.hr = as ++ xs ++ ys ++ zs →
    moveDown k (List.range' (as.length + k) ys.length) hl =
      hl.withSlots (as ++ ys ++
        (xs ++ List.replicate ys.length Slot.null).drop ys.length ++ zs) := by
  intro ys
  induction ys with
  | nil =>
    intro xs as hl hxs hk hhr
    rw [List.append_nil] at hhr
    simp [moveDown, Hostlist.withSlots, ← hhr]
  | cons y ys ih =>
    intro xs as hl hxs hk hhr
    cases xs with
    | nil => simp at hxs; omega
    | cons x xs =>
      have hlow : as.length + k - k = as.length := Nat.add_sub_cancel _ _
      have hslot : hl.slot (as.length + k) = y := by
        rw [Hostlist.slot, hhr, List.getD_eq_getElem?_getD, List.append_assoc,
          List.getElem?_append_right (by simp [← hxs])]
        simp [← hxs]
      have hset : ((hl.setSlot (as.length + k - k) (hl.slot (as.length + k))).setSlot
          (as.length + k) .null).hr =
          (as ++ [y]) ++ (xs ++ [.null]) ++ ys ++ zs := by
        rw [hlow, hslot, Hostlist.setSlot, Hostlist.setSlot, hhr]
        have h1 : (as ++ x :: xs ++ y :: ys ++ zs).set as.length y =
            (as ++ y :: xs) ++ y :: (ys ++ zs) := by
          rw [List.append_assoc, List.append_assoc, List.set_append_right _ _ (by simp)]
          simp
        have h2 : as.length + k = (as ++ y :: xs).length := by
          rw [List.length_append, ← hxs]
          simp
        rw [h1, h2, List.set_append_right _ _ (by simp)]
        simp
      have hlen : as.length + k + 1 = (as ++ [y]).length + k := by
        simp only [List.length_append, List.length_singleton]
        omega
      rw [List.length_cons, List.range'_succ, moveDown, hlen,
        ih (xs ++ [.null]) (as ++ [y]) _ (by simpa using hxs) hk hset]
      simp [Hostlist.withSlots, Hostlist.setSlot, List.replicate_succ]

/-- `hostlist_shift_range` removes the first group, when none of its ranges join
and at least as many ranges follow it. -/
theorem hostlistShiftRange_ofRanges {rs : List HostRange} (h : Sound rs) (free : Nat)
    (hjoin : Unjoined (headGroup rs)) (hmove : 2 * (headGroup rs).length ≤ rs.length) :
    ∃ buf free', hostlistShiftRange (Hostlist.ofRanges rs free (names rs).length) =
        some (buf, Hostlist.ofRanges (afterHead rs) free' (names (afterHead rs)).length) := by
  cases rs with
  | nil => exact ⟨none, free, rfl⟩
  | cons s ss =>
    have hsplit := headGroup_append_afterHead (s :: ss)
    have hlen := congrArg List.length hsplit
    rw [List.length_append] at hlen
    have hpos : 0 < (headGroup (s :: ss)).length := by simp [headGroup]
    obtain ⟨k, hloop⟩ := shiftLoop_eq s (List.replicate free .null) ss s []
      (headGroup (s :: ss)) (afterHead (s :: ss)) (s :: ss).length 16 0
      (Hostlist.ofRanges (s :: ss) free (names (s :: ss)).length)
      (by simp [Hostlist.ofRanges]) (by simp; omega) (by simp) rfl
      (fun r hr => (h.ok r hr).toWf) rfl rfl hjoin
    rw [List.nil_append, Int.zero_add] at hloop
    obtain ⟨buf, hbuf⟩ := rangedCopy_ofRanges (headGroup (s :: ss)) k
      (int32 (hosts (headGroup (s :: ss))))
    have hdown := moveDown_eq (List.replicate free Slot.null)
      ((afterHead (s :: ss)).map Slot.live) (List.replicate (headGroup (s :: ss)).length .freed)
      [] ((Hostlist.ofRanges (s :: ss) free (names (s :: ss)).length).withSlots
        (List.replicate (headGroup (s :: ss)).length Slot.freed ++
          (afterHead (s :: ss)).map Slot.live ++ List.replicate free .null))
      (by simp) hpos rfl
    -- the NULLs left by the moves cover the freed slots
    have hcover : (List.replicate (headGroup (s :: ss)).length Slot.freed ++
        List.replicate (afterHead (s :: ss)).length Slot.null).drop
          (afterHead (s :: ss)).length =
        List.replicate (headGroup (s :: ss)).length .null := by
      rw [List.drop_append, List.drop_of_length_le (by simp; omega)]
      simp
      omega
    have hnhosts := int32_sub_hosts [] (headGroup (s :: ss)) (afterHead (s :: ss))
      (by rwa [List.nil_append, hsplit])
    rw [List.nil_append, List.nil_append, hsplit] at hnhosts
    simp only [List.length_map, List.nil_append, List.length_nil, Nat.zero_add] at hdown
    rw [hcover] at hdown
    refine ⟨some buf, free + (headGroup (s :: ss)).length, ?_⟩
    rw [hostlistShiftRange, ofRanges_nranges, if_neg (by simp)]
    rw [show hostlistNew = Hostlist.ofRanges [] 16 (int32 0) from rfl]
    rw [List.length_nil] at hloop
    rw [hloop]
    simp only [Option.bind_eq_bind, Option.bind_some, ofRanges_nranges, withSlots_nranges]
    rw [show (s :: ss).length - (headGroup (s :: ss)).length =
      (afterHead (s :: ss)).length by omega, hdown, hbuf]
    simp only [Option.bind_some, subtractTmp, withSlots_withSlots, withSlots_nhosts,
      withSlots_nranges, ofRanges_nhosts, ofRanges_nranges, hnhosts]
    refine congrArg (fun l => some (some buf, l)) ?_
    refine Hostlist.eq_ofRanges ?_ ?_ rfl ?_
    · simp only [Hostlist.withSlots, Hostlist.ofRanges]
      omega
    · show (s :: ss).length - (headGroup (s :: ss)).length = _
      omega
    · simp only [Hostlist.withSlots]
      rw [List.append_assoc, List.replicate_append_replicate, Nat.add_comm free]

end Slurm.Hosts
