import SlurmLite.Hostlist.Range

/-!
# The range array

`struct hostlist` as the source keeps it: an array of `hostrange_t` slots, the
number of slots in use, and the number of hosts, each updated by itself. A slot
is NULL, points to a live range, or still holds a pointer that was freed.

* **Functions**: `hostlist_push_range`, `hostlist_insert_range` and
  `hostlist_delete_range`. `none` is undefined behaviour (a freed range read).
* **Shape** (`Hostlist.ofRanges`): the arrays in which the first slots are live
  and the rest NULL. Each function is an equation on this shape, over the
  list of ranges it holds (`hostlistPushRange_ofRanges` and its neighbours).

Memory allocation does not fail here (the source's `fatal` ends the program),
and the list of iterators is left out: no operation below reads it.
-/

namespace Slurm.Hosts

open Base.Text Base.CLib

/-- One slot of the array. -/
inductive Slot where
  | null
  | freed
  | live (hr : HostRange)
deriving DecidableEq

/-- `struct hostlist`. -/
structure Hostlist where
  size : Nat
  nranges : Nat
  nhosts : Int
  hr : List Slot
deriving DecidableEq

/-- The slot at `i`; outside the array nothing may be read. -/
def Hostlist.slot (hl : Hostlist) (i : Nat) : Slot := hl.hr.getD i .freed

/-- Reading the range at `i`. -/
def Hostlist.range (hl : Hostlist) (i : Nat) : Option HostRange :=
  match hl.slot i with
  | .live r => some r
  | _ => none

/-- `HOSTLIST_CHUNK`. -/
def hostlistChunk : Nat := 16

/-- `hostlist_new`. -/
def hostlistNew : Hostlist :=
  { size := hostlistChunk, nranges := 0, nhosts := 0,
    hr := List.replicate hostlistChunk .null }

/-- `hostlist_resize` to a larger size. -/
def hostlistResize (hl : Hostlist) (newsize : Nat) : Hostlist :=
  { hl with
    size := newsize
    hr := hl.hr ++ List.replicate (newsize - hl.size) .null }

/-- `hostlist_expand`. -/
def hostlistExpand (hl : Hostlist) : Hostlist :=
  hostlistResize hl (hl.size + hostlistChunk)

/-- Room for one more range, as the push and insert functions make it. -/
def makeRoom (hl : Hostlist) : Hostlist :=
  if hl.size = hl.nranges then hostlistExpand hl else hl

/-- `hostlist_push_range`: the list and the pushed range, whose width the
comparison with the tail may change. A NULL tail never compares equal. -/
def hostlistPushRange (hl : Hostlist) (hr : HostRange) : Option (Hostlist × HostRange) :=
  let hl1 := makeRoom hl
  let counted (h : Hostlist) : Hostlist :=
    { h with nhosts := int32 (h.nhosts + hostrangeCount hr) }
  let appended : Hostlist :=
    counted { hl1 with
      nranges := hl1.nranges + 1
      hr := hl1.hr.set hl1.nranges (.live (hostrangeCopy hr)) }
  if hl.nranges > 0 then
    match hl.slot (hl.nranges - 1) with
    | .freed => none
    | .null => some (appended, hr)
    | .live tail =>
      if hostrangePrefixCmp (some tail) (some hr) = 0 ∧ tail.hi = ulong (hr.lo - 1) then
        let c := hostrangeWidthCombine tail hr
        if c.1 then
          some (counted { hl1 with
            hr := hl1.hr.set (hl.nranges - 1) (.live { c.2.1 with hi := hr.hi }) }, c.2.2)
        else some (appended, hr)
      else some (appended, hr)
  else some (appended, hr)

/-- `hostlist_push_hr`. -/
def hostlistPushHr (hl : Hostlist) (p : List Char) (lo hi width : Nat) : Option Hostlist :=
  (hostlistPushRange hl (hostrangeCreate p lo hi width)).map (·.1)

/-- `hostlist_insert_range`: the slots from `n` on move up by one. -/
def hostlistInsertRange (hl : Hostlist) (hr : HostRange) (n : Nat) : Hostlist :=
  if n > hl.nranges then hl
  else
    let hl1 := makeRoom hl
    { hl1 with
      nranges := hl1.nranges + 1
      hr := hl1.hr.take n ++ .live (hostrangeCopy hr) :: (hl1.hr.take hl1.nranges).drop n ++
        hl1.hr.drop (hl1.nranges + 1) }

/-- `hostlist_delete_range`: the slots after `n` move down by one, and the last
slot in use becomes NULL. `nhosts` is left to the caller. -/
def hostlistDeleteRange (hl : Hostlist) (n : Nat) : Hostlist :=
  { hl with
    nranges := hl.nranges - 1
    hr := hl.hr.take n ++ (hl.hr.take hl.nranges).drop (n + 1) ++
      .null :: hl.hr.drop hl.nranges }

/-! ## Pushing onto a list of ranges -/

/-- `r` continues `t`, so that pushing `r` after `t` extends `t`. -/
def Joins (t r : HostRange) : Prop :=
  SamePrefix t r ∧ t.hi = ulong (r.lo - 1) ∧ Compatible t r

instance (t r : HostRange) : Decidable (Joins t r) :=
  inferInstanceAs (Decidable (_ ∧ _ ∧ _))

/-- The tail after `r` was pushed behind it. -/
def pushTail (t r : HostRange) : List HostRange :=
  if Joins t r then [{ (hostrangeWidthCombine t r).2.1 with hi := r.hi }]
  else [t, hostrangeCopy r]

/-- Pushing a range onto a list of ranges. -/
def pushRange (rs : List HostRange) (r : HostRange) : List HostRange :=
  match rs.getLast? with
  | none => [hostrangeCopy r]
  | some t => rs.dropLast ++ pushTail t r

/-- Pushing several ranges, one after the other. -/
def pushRanges (rs ss : List HostRange) : List HostRange := ss.foldl pushRange rs

@[simp] theorem pushRange_nil (r : HostRange) : pushRange [] r = [hostrangeCopy r] := rfl

@[simp] theorem pushRange_append (rs : List HostRange) (t r : HostRange) :
    pushRange (rs ++ [t]) r = rs ++ pushTail t r := by
  simp [pushRange]

@[simp] theorem pushRanges_nil (rs : List HostRange) : pushRanges rs [] = rs := rfl

@[simp] theorem pushRanges_cons (rs : List HostRange) (s : HostRange) (ss : List HostRange) :
    pushRanges rs (s :: ss) = pushRanges (pushRange rs s) ss := rfl

theorem pushRanges_append (rs ss ts : List HostRange) :
    pushRanges rs (ss ++ ts) = pushRanges (pushRanges rs ss) ts := List.foldl_append

/-! ## The shape of an array -/

/-- The array whose first slots hold `rs`, with `free` NULL slots after them. -/
def Hostlist.ofRanges (rs : List HostRange) (free : Nat) (nhosts : Int) : Hostlist :=
  { size := rs.length + free, nranges := rs.length, nhosts := nhosts,
    hr := rs.map .live ++ List.replicate free .null }

@[simp] theorem ofRanges_nranges (rs : List HostRange) (free : Nat) (n : Int) :
    (Hostlist.ofRanges rs free n).nranges = rs.length := rfl

@[simp] theorem ofRanges_nhosts (rs : List HostRange) (free : Nat) (n : Int) :
    (Hostlist.ofRanges rs free n).nhosts = n := rfl

theorem Hostlist.eq_ofRanges {hl : Hostlist} {rs : List HostRange} {free : Nat} {n : Int}
    (hsize : hl.size = rs.length + free) (hnranges : hl.nranges = rs.length)
    (hnhosts : hl.nhosts = n)
    (hhr : hl.hr = rs.map Slot.live ++ List.replicate free Slot.null) :
    hl = Hostlist.ofRanges rs free n := by
  cases hl
  simp_all [Hostlist.ofRanges]

theorem ofRanges_slot {rs ss : List HostRange} {r : HostRange} {free : Nat} {n : Int} :
    (Hostlist.ofRanges (rs ++ r :: ss) free n).slot rs.length = .live r := by
  simp [Hostlist.slot, Hostlist.ofRanges, List.getD_eq_getElem?_getD]

theorem ofRanges_range {rs ss : List HostRange} {r : HostRange} {free : Nat} {n : Int} :
    (Hostlist.ofRanges (rs ++ r :: ss) free n).range rs.length = some r := by
  rw [Hostlist.range, ofRanges_slot]

/-- Making room leaves the shape and at least one free slot. -/
theorem makeRoom_ofRanges (rs : List HostRange) (free : Nat) (n : Int) :
    ∃ k, makeRoom (Hostlist.ofRanges rs free n) = Hostlist.ofRanges rs (k + 1) n := by
  cases free with
  | zero =>
    refine ⟨15, ?_⟩
    simp [makeRoom, Hostlist.ofRanges, hostlistExpand, hostlistResize, hostlistChunk]
  | succ k =>
    refine ⟨k, ?_⟩
    rw [makeRoom, if_neg]
    simp [Hostlist.ofRanges]

/-! ## Pushing onto an array -/

/-- The array whose first slots hold `rs`, with the slots `rest` after them. -/
def Hostlist.ofSlots (rs : List HostRange) (rest : List Slot) (nhosts : Int) : Hostlist :=
  { size := rs.length + rest.length, nranges := rs.length, nhosts := nhosts,
    hr := rs.map .live ++ rest }

/-- The slots after those in use, when room was made. -/
def roomed (rest : List Slot) : List Slot :=
  if rest = [] then List.replicate hostlistChunk .null else rest

theorem roomed_ne_nil (rest : List Slot) : roomed rest ≠ [] := by
  unfold roomed
  split
  · simp [hostlistChunk]
  · assumption

theorem makeRoom_ofSlots (rs : List HostRange) (rest : List Slot) (n : Int) :
    makeRoom (Hostlist.ofSlots rs rest n) = Hostlist.ofSlots rs (roomed rest) n := by
  cases rest with
  | nil => simp [makeRoom, roomed, Hostlist.ofSlots, hostlistExpand, hostlistResize]
  | cons s rest =>
    rw [makeRoom, if_neg]
    · rfl
    · simp [Hostlist.ofSlots]

theorem ofSlots_slot {rs ss : List HostRange} {r : HostRange} {rest : List Slot} {n : Int} :
    (Hostlist.ofSlots (rs ++ r :: ss) rest n).slot rs.length = .live r := by
  simp [Hostlist.slot, Hostlist.ofSlots, List.getD_eq_getElem?_getD]

theorem set_ofSlots_first (rs : List HostRange) (r : HostRange) (s : Slot) (rest : List Slot) :
    (rs.map Slot.live ++ s :: rest).set rs.length (.live r) =
      (rs ++ [r]).map Slot.live ++ rest := by
  rw [List.set_append_right _ _ (by simp)]
  simp

theorem set_ofSlots_last (rs : List HostRange) (t r : HostRange) (rest : List Slot) :
    ((rs ++ [t]).map Slot.live ++ rest).set rs.length (.live r) =
      (rs ++ [r]).map Slot.live ++ rest := by
  rw [List.set_append_left _ _ (by simp), List.map_append, List.set_append_right _ _ (by simp)]
  simp

/-- Pushing keeps the shape, and pushes onto the list of ranges. At most one of
the slots after those in use is taken. -/
theorem hostlistPushRange_ofSlots (rs : List HostRange) (rest : List Slot) (n : Int)
    (r : HostRange) :
    ∃ used r', hostlistPushRange (Hostlist.ofSlots rs rest n) r =
      some (Hostlist.ofSlots (pushRange rs r) ((roomed rest).drop used)
        (int32 (n + hostrangeCount r)), r') := by
  obtain ⟨s, more, hroom⟩ := List.exists_cons_of_ne_nil (roomed_ne_nil rest)
  -- a new range in the first slot after those in use
  have hnew : ∀ (rs : List HostRange) (h : Int), ({
      size := (Hostlist.ofSlots rs (s :: more) n).size
      nranges := (Hostlist.ofSlots rs (s :: more) n).nranges + 1
      nhosts := h
      hr := (Hostlist.ofSlots rs (s :: more) n).hr.set
        (Hostlist.ofSlots rs (s :: more) n).nranges
        (.live (hostrangeCopy r)) } : Hostlist) =
      Hostlist.ofSlots (rs ++ [hostrangeCopy r]) more h := by
    intro rs h
    have hset := set_ofSlots_first rs (hostrangeCopy r) s more
    simp only [Hostlist.ofSlots, hset]
    simp
    omega
  unfold hostlistPushRange
  simp only [makeRoom_ofSlots, hroom]
  rcases rs.eq_nil_or_concat' with rfl | ⟨ss, t, rfl⟩
  · refine ⟨1, r, ?_⟩
    rw [if_neg (by simp [Hostlist.ofSlots]), hnew]
    rfl
  · have hslot : (Hostlist.ofSlots (ss ++ [t]) rest n).slot
        ((Hostlist.ofSlots (ss ++ [t]) rest n).nranges - 1) = .live t := by
      have hlast : (Hostlist.ofSlots (ss ++ [t]) rest n).nranges - 1 = ss.length := by
        simp [Hostlist.ofSlots]
      rw [hlast]
      exact ofSlots_slot
    rw [if_pos (by simp [Hostlist.ofSlots]), hslot]
    simp only [hostrangePrefixCmp_eq_zero_iff]
    rw [pushRange_append, pushTail]
    by_cases hpre : SamePrefix t r ∧ t.hi = ulong (r.lo - 1)
    · rw [if_pos hpre]
      by_cases hc : Compatible t r
      · have hone : (hostrangeWidthCombine t r).1 = true := by
          rw [(hostrangeWidthCombine_spec t r).1]
          simp [hc]
        rw [if_pos hone, if_pos ⟨hpre.1, hpre.2, hc⟩]
        refine ⟨0, (hostrangeWidthCombine t r).2.2, ?_⟩
        have hset := set_ofSlots_last ss t
          { (hostrangeWidthCombine t r).2.1 with hi := r.hi } (s :: more)
        simp only [Hostlist.ofSlots, List.length_append, List.length_singleton,
          Nat.add_sub_cancel, hset]
        rfl
      · rw [if_neg (fun h : Joins t r => hc h.2.2), hostrangeWidthCombine_of_not hc]
        refine ⟨1, r, ?_⟩
        rw [if_neg (by simp), hnew, List.append_assoc]
        rfl
    · rw [if_neg hpre, if_neg (fun h : Joins t r => hpre ⟨h.1, h.2.1⟩)]
      exact ⟨1, r, by rw [hnew, List.append_assoc]; rfl⟩

/-- Pushing onto an array with NULL slots after those in use. -/
theorem hostlistPushRange_ofRanges (rs : List HostRange) (free : Nat) (n : Int)
    (r : HostRange) :
    ∃ free' r', hostlistPushRange (Hostlist.ofRanges rs free n) r =
      some (Hostlist.ofRanges (pushRange rs r) free' (int32 (n + hostrangeCount r)), r') := by
  have hnull : ∀ (rs : List HostRange) (free : Nat) (n : Int), Hostlist.ofRanges rs free n =
      Hostlist.ofSlots rs (List.replicate free .null) n := by
    intro rs free n
    simp [Hostlist.ofRanges, Hostlist.ofSlots]
  obtain ⟨used, r', h⟩ :=
    hostlistPushRange_ofSlots rs (List.replicate free .null) n r
  have hroom : ∃ k, roomed (List.replicate free Slot.null) = List.replicate k .null := by
    unfold roomed
    split
    · exact ⟨hostlistChunk, rfl⟩
    · exact ⟨free, rfl⟩
  obtain ⟨k, hk⟩ := hroom
  refine ⟨k - used, r', ?_⟩
  rw [hnull, h, hk, List.drop_replicate, hnull]

/-- Inserting keeps the shape. -/
theorem hostlistInsertRange_ofRanges (as bs : List HostRange) (free : Nat) (n : Int)
    (r : HostRange) :
    ∃ free', hostlistInsertRange (Hostlist.ofRanges (as ++ bs) free n) r as.length =
      Hostlist.ofRanges (as ++ hostrangeCopy r :: bs) free' n := by
  obtain ⟨k, hk⟩ := makeRoom_ofRanges (as ++ bs) free n
  refine ⟨k, ?_⟩
  rw [hostlistInsertRange, if_neg (by simp)]
  simp only [hk]
  have hlen : (as ++ bs).length = as.length + bs.length := List.length_append
  simp only [Hostlist.ofRanges, List.map_append, List.append_assoc]
  congr 1
  · simp only [List.length_append, List.length_cons]
    omega
  · simp only [List.length_append, List.length_cons]
    omega
  · have e1 : (as.map Slot.live ++ (bs.map Slot.live ++ List.replicate (k + 1) Slot.null)).take
        as.length = as.map Slot.live := by
      rw [List.take_append_of_le_length (by simp), List.take_of_length_le (by simp)]
    have e2 : ((as.map Slot.live ++ (bs.map Slot.live ++
        List.replicate (k + 1) Slot.null)).take (as ++ bs).length).drop as.length =
        bs.map Slot.live := by
      rw [← List.append_assoc, List.take_append_of_le_length (by simp),
        List.take_of_length_le (by simp), List.drop_append_of_le_length (by simp),
        List.drop_of_length_le (by simp), List.nil_append]
    have e3 : (as.map Slot.live ++ (bs.map Slot.live ++
        List.replicate (k + 1) Slot.null)).drop ((as ++ bs).length + 1) =
        List.replicate k Slot.null := by
      rw [← List.append_assoc, List.drop_append]
      simp [List.replicate_succ]
    rw [e1, e2, e3]
    simp

/-- Deleting keeps the shape. -/
theorem hostlistDeleteRange_ofRanges (as bs : List HostRange) (r : HostRange) (free : Nat)
    (n : Int) :
    hostlistDeleteRange (Hostlist.ofRanges (as ++ r :: bs) free n) as.length =
      Hostlist.ofRanges (as ++ bs) (free + 1) n := by
  have hlen : (as ++ r :: bs).length = as.length + bs.length + 1 := by simp; omega
  simp only [hostlistDeleteRange, Hostlist.ofRanges, hlen]
  congr 1
  · simp only [List.length_append]
    omega
  · simp only [List.length_append]
    omega
  · have e1 : ((as ++ r :: bs).map Slot.live ++ List.replicate free Slot.null).take as.length =
        as.map Slot.live := by
      rw [List.take_append_of_le_length (by simp), List.map_append,
        List.take_append_of_le_length (by simp), List.take_of_length_le (by simp)]
    have e2 : (((as ++ r :: bs).map Slot.live ++ List.replicate free Slot.null).take
        (as.length + bs.length + 1)).drop (as.length + 1) = bs.map Slot.live := by
      rw [List.take_append_of_le_length (by simp [Nat.add_assoc]),
        List.take_of_length_le (by simp [Nat.add_assoc]), List.map_append, List.drop_append]
      simp
    have e3 : ((as ++ r :: bs).map Slot.live ++ List.replicate free Slot.null).drop
        (as.length + bs.length + 1) = List.replicate free Slot.null := by
      rw [List.drop_append, List.drop_of_length_le (by simp; omega)]
      simp
    rw [e1, e2, e3]
    simp [List.replicate_succ]

end Slurm.Hosts
