import SlurmLite.Base.MapM
import SlurmLite.Hostlist.Shift

/-!
# Four ways through a list

`hostlist_next`, `hostlist_nth`, `hostlist_shift` and `hostlist_pop` each
enumerate the hosts of a list with their own counters and buffers.

* **Walking** (`nextAll_places`, `length_nextAll`): an iterator steps through the
  places of the list, a range and one of its numbers at a time.
* **Indexing** (`nthAll_places`), **popping** (`popAll_places`): the same places,
  one by one.
* **Agreement** (`agree_iff`): the four sequences are equal exactly when the list
  is `Listed`.
-/

namespace Slurm.Hosts

open Base.Text Base.CLib Base.MapM

/-! ## The functions -/

/-- `struct hostlist_iterator`. Its `hr` is the pointer in slot `idx` of the list
all along, and is left out. -/
structure Iterator where
  idx : Nat
  depth : Int
deriving DecidableEq

/-- `hostlist_iterator_create`. -/
def hostlistIteratorCreate : Iterator := { idx := 0, depth := -1 }

/-- `_iterator_advance`; `none` when `depth` overflows or no range is there. The
comparison is made in `unsigned long`. -/
def iteratorAdvance (hl : Hostlist) (i : Iterator) : Option Iterator :=
  if (i.idx : Int) > hl.nranges - 1 then some i
  else
    (hl.range i.idx).bind fun hr =>
      let depth := i.depth + 1
      if depth > 2147483647 then none
      else if ulong depth > ulong ((hr.hi : Int) - hr.lo) then
        some { idx := i.idx + 1, depth := 0 }
      else some { i with depth := depth }

/-- `_hostrange_string`, and the text `hostlist_next` prints. -/
def hostrangeString (hr : HostRange) (depth : Int) : Option (List Char) :=
  nextName (hr, ulong (hr.lo + depth))

/-- `hostlist_next`: the name or NULL, and the iterator. -/
def hostlistNext (hl : Hostlist) (i : Iterator) : Option (Option (List Char) × Iterator) :=
  (iteratorAdvance hl i).bind fun i =>
    if (i.idx : Int) > hl.nranges - 1 then some (none, i)
    else
      (hl.range i.idx).bind fun hr =>
        (hostrangeString hr i.depth).map fun name => (some name, i)

/-- The loop of `hostlist_nth`. -/
def nthName (hl : Hostlist) (n : Int) : Nat → Nat → Int → Option (Option (List Char))
  | 0, _, _ => some none
  | fuel + 1, i, count =>
    (hl.range i).bind fun hr =>
      let numInRange := int32 (hostrangeCount hr)
      if n ≤ numInRange - 1 + count then (hostrangeString hr (n - count)).map some
      else nthName hl n fuel (i + 1) (int32 (count + numInRange))

/-- `hostlist_nth`: the name or NULL. -/
def hostlistNth (hl : Hostlist) (n : Int) : Option (Option (List Char)) :=
  nthName hl n hl.nranges 0 0

/-! ## The sequences -/

/-- The names `hostlist_next` returns until it returns NULL. -/
def nextAll : Nat → Hostlist → Iterator → Option (List (List Char))
  | 0, _, _ => none
  | fuel + 1, hl, i =>
    match hostlistNext hl i with
    | none => none
    | some (none, _) => some []
    | some (some name, i) => (nextAll fuel hl i).map (name :: ·)

/-- The names `hostlist_nth` returns for 0 to `nhosts - 1`. -/
def nthAll (hl : Hostlist) : Option (List (List Char)) :=
  (List.range hl.nhosts.toNat).mapM fun n : Nat => (hostlistNth hl n).bind id

/-- The names `hostlist_pop` returns until it returns NULL. -/
def popAll : Nat → Hostlist → Option (List (List Char))
  | 0, _ => none
  | fuel + 1, hl =>
    match hostlistPop hl with
    | none => none
    | some (none, _) => some []
    | some (some name, hl) => (popAll fuel hl).map (name :: ·)

/-- The four sequences of names are equal. -/
def Agree (hl : Hostlist) : Prop :=
  ∃ ns, (∃ fuel, nextAll fuel hl hostlistIteratorCreate = some ns) ∧ nthAll hl = some ns ∧
    (∃ fuel, drain fuel hl = some ns) ∧ ∃ fuel, popAll fuel hl = some ns.reverse

/-- A place is printed alike into the buffer of `hostlist_next` and
`hostlist_nth`, which has room for 78 characters and no longer prefix in front
of a number, and into the one of `hostlist_shift` and `hostlist_pop`. -/
structure PrintsAlike (p : HostRange × Nat) : Prop where
  room : p.1.singlehost = false → p.1.pfx.length ≤ maxHostNameLen + 15
  length : min (maxHostNameLen + 14) (placeName p).length =
    min (p.1.pfx.length + p.1.width + 15) (placeName p).length

/-- Lists on which the four sequences agree. -/
structure Listed (rs : List HostRange) : Prop where
  ordered : ∀ r ∈ rs, r.Ordered
  fits : (names rs).length < 2147483648
  top : ∀ r ∈ rs, ¬ r.TopCut r.lo
  printed : ∀ p ∈ places rs, PrintsAlike p

theorem nextName_eq_iff (p : HostRange × Nat) :
    nextName p = some (shiftName p) ↔ PrintsAlike p := by
  unfold nextName shiftName
  constructor
  · intro h
    split at h
    · cases h
    next hroom =>
      refine ⟨fun hs => ?_, List.take_eq_take_iff.mp (Option.some.inj h)⟩
      by_contra hlong
      exact hroom ⟨hs, by omega⟩
  · rintro ⟨hroom, hlen⟩
    rw [if_neg (fun h => by have := hroom h.1; omega), List.take_eq_take_iff.mpr hlen]

/-! ## Walking -/

/-- The number of hosts an iterator steps through in a range. -/
def reach (r : HostRange) : Nat := ulong ((r.hi : Int) - r.lo) + 1

theorem reach_eq_length {r : HostRange} (hr : r.Wf) (ho : r.Ordered) :
    reach r = r.names.length := by
  have hlo := hr.lo_lt
  have hhi := hr.hi_lt
  rw [length_names, reach]
  cases hs : r.singlehost with
  | true =>
    obtain ⟨h1, h2, -⟩ := hr.single hs
    simp [h1, h2, ulong]
  | false =>
    have hle := ho hs
    unfold ulong
    simp only [Bool.false_eq_true, if_false]
    omega

/-- One step of an iterator in the range `r`. -/
theorem iteratorAdvance_in {as bs : List HostRange} {r : HostRange} {free : Nat} {n d : Int}
    (hd : -1 ≤ d) (hfits : d < 2147483647) :
    iteratorAdvance (Hostlist.ofRanges (as ++ r :: bs) free n) { idx := as.length, depth := d } =
      some (if d + 1 < reach r then { idx := as.length, depth := d + 1 }
        else { idx := as.length + 1, depth := 0 }) := by
  have hdepth : ulong (d + 1) = (d + 1).toNat := by
    unfold ulong
    omega
  rw [iteratorAdvance, ofRanges_nranges, if_neg (by simp), ofRanges_range,
    Option.bind_some]
  simp only [hdepth]
  rw [if_neg (by omega), reach]
  split
  · rw [if_neg (by omega)]
  · rw [if_pos (by omega)]

theorem hostlistNext_end {rs : List HostRange} {free : Nat} {n d : Int} :
    hostlistNext (Hostlist.ofRanges rs free n) { idx := rs.length, depth := d } =
      some (none, { idx := rs.length, depth := d }) := by
  have hend : ((rs.length : Nat) : Int) > rs.length - 1 := by omega
  rw [hostlistNext, iteratorAdvance, ofRanges_nranges, if_pos hend, Option.bind_some]
  exact if_pos hend

/-- The places of a range as an iterator comes to them: the number wraps. -/
def steps (r : HostRange) (d m : Nat) : List (HostRange × Nat) :=
  (List.range' d m).map fun k : Nat => (r, ulong ((r.lo : Int) + k))

/-- The places an iterator at depth `d - 1` of `r` has in front of it. -/
def ahead (r : HostRange) (bs : List HostRange) (d : Nat) : List (HostRange × Nat) :=
  steps r d (reach r - d) ++ bs.flatMap fun s => steps s 0 (reach s)

theorem reach_pos (r : HostRange) : 0 < reach r := Nat.succ_pos _

theorem ahead_in {r : HostRange} {d : Nat} (bs : List HostRange) (h : d < reach r) :
    ahead r bs d = (r, ulong ((r.lo : Int) + d)) :: ahead r bs (d + 1) := by
  have hcut : reach r - d = (reach r - (d + 1)) + 1 := by omega
  rw [ahead, ahead, steps, hcut, List.range'_succ]
  rfl

theorem ahead_next {r : HostRange} {d : Nat} (s : HostRange) (bs : List HostRange)
    (h : ¬ d < reach r) : ahead r (s :: bs) d = ahead s bs 0 := by
  have hcut : reach r - d = 0 := by omega
  rw [ahead, ahead, hcut]
  rfl

theorem ahead_nil {r : HostRange} {d : Nat} (h : ¬ d < reach r) : ahead r [] d = [] := by
  have hcut : reach r - d = 0 := by omega
  rw [ahead, hcut]
  rfl

/-- A call of `hostlist_next` returns the first place ahead and leaves the
others. -/
theorem hostlistNext_ahead {as bs : List HostRange} {r : HostRange} {free d : Nat} {n : Int}
    (hfits : d < 2147483648) :
    (ahead r bs d = [] ∧ ∃ i, hostlistNext (Hostlist.ofRanges (as ++ r :: bs) free n)
        { idx := as.length, depth := (d : Int) - 1 } = some (none, i)) ∨
      ∃ as' r' bs' d' p, as ++ r :: bs = as' ++ r' :: bs' ∧ d' ≤ reach r' ∧
        ahead r bs d = p :: ahead r' bs' d' ∧
        hostlistNext (Hostlist.ofRanges (as ++ r :: bs) free n)
          { idx := as.length, depth := (d : Int) - 1 } =
            (nextName p).map fun name =>
              (some name, { idx := as'.length, depth := (d' : Int) - 1 }) := by
  have hadvance := @iteratorAdvance_in as bs r free n ((d : Int) - 1) (by omega) (by omega)
  have hone : (d : Int) - 1 + 1 = d := by omega
  rw [hone] at hadvance
  by_cases h : d < reach r
  · right
    refine ⟨as, r, bs, d + 1, _, rfl, h, ahead_in bs h, ?_⟩
    rw [if_pos (by exact_mod_cast h)] at hadvance
    rw [hostlistNext, hadvance, Option.bind_some, ofRanges_nranges, if_neg (by simp),
      ofRanges_range, Option.bind_some, hostrangeString]
    push_cast
    rw [Int.add_sub_cancel]
  · rw [if_neg (by exact_mod_cast h)] at hadvance
    cases bs with
    | nil =>
      left
      refine ⟨ahead_nil h, { idx := as.length + 1, depth := 0 }, ?_⟩
      rw [hostlistNext, hadvance, Option.bind_some]
      exact if_pos (by simp)
    | cons s bs =>
      right
      have hlist : as ++ r :: s :: bs = (as ++ [r]) ++ s :: bs := by simp
      have hlen : as.length + 1 = (as ++ [r]).length := by simp
      refine ⟨as ++ [r], s, bs, 1, _, hlist, reach_pos s,
        (ahead_next s bs h).trans (ahead_in bs (reach_pos s)), ?_⟩
      rw [hostlistNext, hadvance, Option.bind_some, hlist, hlen, ofRanges_nranges,
        if_neg (by simp), ofRanges_range, Option.bind_some, hostrangeString]
      rfl

/-- Whatever the list, what is walked to the end are the places ahead. -/
theorem nextAll_ahead {free : Nat} {n : Int} : ∀ (fuel : Nat) (as bs : List HostRange)
    (r : HostRange) (d : Nat) (ns : List (List Char)), d ≤ reach r →
    nextAll fuel (Hostlist.ofRanges (as ++ r :: bs) free n)
      { idx := as.length, depth := (d : Int) - 1 } = some ns →
    (ahead r bs d).mapM nextName = some ns := by
  intro fuel
  induction fuel with
  | zero => intro as bs r d ns _ h; cases h
  | succ fuel ih =>
    intro as bs r d ns hd h
    by_cases hfits : d < 2147483648
    · rw [nextAll] at h
      rcases @hostlistNext_ahead as bs r free d n hfits with
        ⟨hnil, i, hcall⟩ | ⟨as', r', bs', d', p, hlist, hd', hcons, hcall⟩
      · rw [hcall] at h
        obtain rfl := Option.some.inj h
        rw [hnil]
        rfl
      · rw [hcall, hlist] at h
        rw [hcons, List.mapM_cons]
        cases hname : nextName p with
        | none => rw [hname] at h; cases h
        | some name =>
          rw [hname] at h
          obtain ⟨ms, hms, rfl⟩ := Option.map_eq_some_iff.mp h
          rw [ih as' bs' r' d' ms hd' hms]
          rfl
    · -- the depth has run over
      have hover : iteratorAdvance (Hostlist.ofRanges (as ++ r :: bs) free n)
          { idx := as.length, depth := (d : Int) - 1 } = none := by
        rw [iteratorAdvance, ofRanges_nranges, if_neg (by simp), ofRanges_range,
          Option.bind_some]
        exact if_pos (by show (d : Int) - 1 + 1 > _; omega)
      rw [nextAll, hostlistNext, hover] at h
      cases h

/-- Where no depth runs over, the walk comes to its end. -/
theorem nextAll_ends {free : Nat} {n : Int} : ∀ (fuel : Nat) (as bs : List HostRange)
    (r : HostRange) (d : Nat), d ≤ reach r → (∀ s ∈ as ++ r :: bs, reach s < 2147483648) →
    (ahead r bs d).length < fuel →
    nextAll fuel (Hostlist.ofRanges (as ++ r :: bs) free n)
      { idx := as.length, depth := (d : Int) - 1 } = (ahead r bs d).mapM nextName := by
  intro fuel
  induction fuel with
  | zero => intro as bs r d _ _ h; omega
  | succ fuel ih =>
    intro as bs r d hd hfits hlen
    have hr := hfits r (by simp)
    rw [nextAll]
    rcases @hostlistNext_ahead as bs r free d n (by omega) with
      ⟨hnil, i, hcall⟩ | ⟨as', r', bs', d', p, hlist, hd', hcons, hcall⟩
    · rw [hcall, hnil]
      rfl
    · rw [hcons, List.length_cons] at hlen
      rw [hcall, hcons, hlist, List.mapM_cons]
      cases nextName p with
      | none => rfl
      | some name =>
        rw [hlist] at hfits
        have hrec := ih as' bs' r' d' hd' hfits (by omega)
        simp only [Option.map_some, Option.bind_eq_bind, Option.bind_some]
        rw [hrec]
        cases (ahead r' bs' d').mapM nextName with
        | none => rfl
        | some ms => rfl

theorem length_numbers {r : HostRange} (hr : r.Wf) : r.numbers.length = r.names.length := by
  rw [length_names, HostRange.numbers, List.length_range']
  cases hs : r.singlehost with
  | true =>
    obtain ⟨h1, h2, -⟩ := hr.single hs
    simp [h1, h2]
  | false => rfl

theorem length_places {rs : List HostRange} (h : ∀ r ∈ rs, r.Wf) :
    (places rs).length = (names rs).length := by
  rw [names_eq_places h, List.length_map]

/-- A range whose bounds are in order is stepped through number by number. -/
theorem steps_eq_places {r : HostRange} (hr : r.Wf) (ho : r.Ordered) :
    steps r 0 (reach r) = r.numbers.map fun k => (r, k) := by
  have hlen : r.hi + 1 - r.lo = reach r := by
    rw [reach_eq_length hr ho, ← length_numbers hr, HostRange.numbers, List.length_range']
  have hnums : r.numbers = (List.range' 0 (reach r)).map (r.lo + ·) := by
    rw [HostRange.numbers, hlen, List.map_add_range', Nat.add_zero]
  rw [hnums, steps, List.map_map]
  refine List.map_congr_left fun k hk => ?_
  have hlt : k < reach r := by
    have := (List.mem_range'_1.mp hk).2
    omega
  have hhi := hr.hi_lt
  have hnum : ulong ((r.lo : Int) + k) = r.lo + k := by
    have hcast : (r.lo : Int) + k = ((r.lo + k : Nat) : Int) := by push_cast; rfl
    rw [hcast]
    exact ulong_of_lt (by omega)
  simp only [Function.comp, hnum]

theorem ahead_eq_places {r : HostRange} {bs : List HostRange}
    (hok : ∀ s ∈ r :: bs, s.Wf ∧ s.Ordered) : ahead r bs 0 = places (r :: bs) := by
  have hall : ∀ s ∈ r :: bs, steps s 0 (reach s) = s.numbers.map fun k => (s, k) := fun s hs =>
    steps_eq_places (hok s hs).1 (hok s hs).2
  rw [ahead, Nat.sub_zero, places, List.flatMap_cons, hall r (by simp)]
  congr 1
  exact List.flatMap_congr fun s hs => hall s (List.mem_cons_of_mem _ hs)

/-- Walking a sound list. -/
theorem nextAll_places {rs : List HostRange} (h : Sound rs) {free : Nat} {n : Int} {fuel : Nat}
    (hfuel : (names rs).length < fuel) :
    nextAll fuel (Hostlist.ofRanges rs free n) hostlistIteratorCreate =
      (places rs).mapM nextName := by
  cases rs with
  | nil =>
    cases fuel with
    | zero => omega
    | succ fuel =>
      have hend := @hostlistNext_end [] free n (-1)
      rw [nextAll]
      rw [List.length_nil] at hend
      rw [hostlistIteratorCreate, hend]
      rfl
  | cons r bs =>
    have hok : ∀ s ∈ r :: bs, s.Wf ∧ s.Ordered := fun s hs =>
      ⟨(h.ok s hs).toWf, h.ordered s hs⟩
    have hfits : ∀ s ∈ [] ++ r :: bs, reach s < 2147483648 := by
      intro s hs
      rw [reach_eq_length (hok s hs).1 (hok s hs).2]
      exact Nat.lt_of_le_of_lt (length_names_le_of_mem hs) h.fits
    have hlen : (ahead r bs 0).length < fuel := by
      rw [ahead_eq_places hok, length_places fun s hs => (hok s hs).1]
      exact hfuel
    have hwalk := @nextAll_ends free n fuel [] bs r 0 (Nat.zero_le _) hfits hlen
    rw [ahead_eq_places hok] at hwalk
    exact hwalk

/-- A walk to the end steps through every host of every range. -/
theorem length_nextAll {rs : List HostRange} {free : Nat} {n : Int} {fuel : Nat}
    {ns : List (List Char)}
    (h : nextAll fuel (Hostlist.ofRanges rs free n) hostlistIteratorCreate = some ns) :
    ns.length = (rs.map reach).sum := by
  cases rs with
  | nil =>
    cases fuel with
    | zero => cases h
    | succ fuel =>
      have hend := @hostlistNext_end [] free n (-1)
      rw [List.length_nil] at hend
      rw [nextAll, hostlistIteratorCreate, hend] at h
      obtain rfl := Option.some.inj h
      rfl
  | cons r bs =>
    have hwalk := @nextAll_ahead free n fuel [] bs r 0 ns (Nat.zero_le _) h
    rw [length_of_mapM hwalk, ahead, List.length_append, List.length_flatMap]
    simp [steps]

/-! ## Indexing -/

/-- The place with number `j` of the range behind `as`. -/
theorem places_getElem? {as bs : List HostRange} {r : HostRange}
    (hok : ∀ s ∈ as ++ r :: bs, s.Wf) {j : Nat} (hj : j < r.names.length) :
    (places (as ++ r :: bs))[(names as).length + j]? = some (r, r.lo + j) := by
  have hsplit : places (as ++ r :: bs) =
      places as ++ (r.numbers.map (fun k => (r, k)) ++ places bs) := by
    simp [places]
  have hlen := length_places fun s hs => hok s (List.mem_append_left _ hs)
  have hnum : j < (r.numbers.map fun k => (r, k)).length := by
    rw [List.length_map, length_numbers (hok r (by simp))]
    exact hj
  rw [hsplit, List.getElem?_append_right (by omega), hlen, Nat.add_sub_cancel_left,
    List.getElem?_append_left hnum, List.getElem?_map, HostRange.numbers, List.getElem?_range']
  · rw [Option.map_some, Nat.one_mul]
  · rw [List.length_map, HostRange.numbers, List.length_range'] at hnum
    exact hnum

theorem nthName_place {rs : List HostRange} (h : Sound rs) (free : Nat) (m : Int) {n : Nat}
    (hn : n < (names rs).length) :
    ∀ (ss as : List HostRange), rs = as ++ ss → (names as).length ≤ n →
    (nthName (Hostlist.ofRanges rs free m) n ss.length as.length (names as).length).bind id =
      (places rs)[n]?.bind nextName := by
  intro ss
  induction ss with
  | nil =>
    intro as has hle
    rw [List.append_nil] at has
    subst has
    omega
  | cons r bs ih =>
    intro as has hle
    subst has
    have hwf : r.Wf := (h.ok r (by simp)).toWf
    have hlen : r.names.length < 2147483648 :=
      Nat.lt_of_le_of_lt (length_names_le_of_mem (by simp)) h.fits
    have hcount : int32 (hostrangeCount r) = r.names.length := by
      rw [h.count_eq (by simp)]
      exact int32_of_range (by omega) (by omega)
    have hfits := h.fits
    simp only [names_append, names_cons, List.length_append] at hfits
    rw [List.length_cons, nthName, ofRanges_range, Option.bind_some]
    simp only [hcount]
    by_cases hhere : n < (names as).length + r.names.length
    · -- the place is in this range
      have hplace := @places_getElem? as bs r (fun s hs => (h.ok s hs).toWf)
        (n - (names as).length) (by omega)
      have hidx : (names as).length + (n - (names as).length) = n := by omega
      have hnum : ulong ((r.lo : Int) + (n - (names as).length)) =
          r.lo + (n - (names as).length) := by
        have hbound := @HostRange.Wf.number_lt r hwf (n - (names as).length) (by omega)
        have hcast : (r.lo : Int) + (n - (names as).length) =
            ((r.lo + (n - (names as).length) : Nat) : Int) := by
          push_cast
          omega
        rw [hcast]
        exact ulong_of_lt hbound
      rw [hidx] at hplace
      rw [if_pos (by omega), hplace, hostrangeString, hnum, Option.bind_some]
      cases nextName (r, r.lo + (n - (names as).length)) with
      | none => rfl
      | some name => rfl
    · have hsum : int32 ((names as).length + r.names.length) =
          ((names (as ++ [r])).length : Nat) := by
        rw [int32_of_range (by omega) (by omega)]
        simp
      have hidx : as.length + 1 = (as ++ [r]).length := by simp
      rw [if_neg (by omega), hsum, hidx]
      exact ih (as ++ [r]) (by simp) (by simp; omega)

/-- `hostlist_nth` on a sound list finds the place with that number. -/
theorem hostlistNth_place {rs : List HostRange} (h : Sound rs) (free : Nat) (m : Int) {n : Nat}
    (hn : n < (names rs).length) :
    (hostlistNth (Hostlist.ofRanges rs free m) n).bind id = (places rs)[n]?.bind nextName :=
  nthName_place h free m hn rs [] rfl (Nat.zero_le _)

theorem mapM_range {α β : Type} {f : α → Option β} : ∀ {l : List α} {g : Nat → Option β},
    (∀ n, n < l.length → g n = l[n]?.bind f) → (List.range l.length).mapM g = l.mapM f := by
  intro l
  induction l with
  | nil => exact fun _ => rfl
  | cons a l ih =>
    intro g h
    have hhead : g 0 = f a := h 0 (Nat.succ_pos _)
    have htail : (List.range l.length).mapM (fun n => g (n + 1)) = l.mapM f :=
      ih fun n hn => h (n + 1) (Nat.succ_lt_succ hn)
    rw [List.length_cons, List.range_succ_eq_map, List.mapM_cons, List.mapM_cons, List.mapM_map,
      hhead, ← htail]
    rfl

/-- Indexing a sound list. -/
theorem nthAll_places {rs : List HostRange} (h : Sound rs) (free : Nat) :
    nthAll (Hostlist.ofRanges rs free (names rs).length) = (places rs).mapM nextName := by
  have hlen := length_places fun r hr => (h.ok r hr).toWf
  rw [nthAll, ofRanges_nhosts, Int.toNat_natCast, ← hlen]
  apply mapM_range
  intro n hn
  exact hostlistNth_place h free _ (by omega)

/-! ## Popping -/

/-- The places of a list are those of the list without its last number, and that
place. -/
theorem map_shiftName_concat (as : List HostRange) {r : HostRange} (hr : r.Wf)
    (ho : r.Ordered) :
    (places (as ++ [r])).map shiftName =
      (places (as ++ r.without r.hi)).map shiftName ++ [shiftName (r, r.hi)] := by
  have happ : ∀ ss, places (as ++ ss) = places as ++ places ss := fun ss => List.flatMap_append
  rw [happ, happ, List.map_append, List.map_append, List.append_assoc]
  congr 1
  have hone : places [r] = r.numbers.map fun k => (r, k) := List.flatMap_singleton ..
  rw [hone]
  cases hs : r.singlehost with
  | true =>
    obtain ⟨-, hhi, -⟩ := hr.single hs
    rw [hr.numbers_single hs, HostRange.without, if_pos hs, hhi]
    rfl
  | false =>
    have hle := ho hs
    have hno : ¬ r.singlehost = true := by simp [hs]
    have hcut : r.hi + 1 - r.lo = (r.hi - r.lo) + 1 := by omega
    have hlast : r.lo + (r.hi - r.lo) = r.hi := by omega
    rw [HostRange.numbers, hcut, List.range'_1_concat, hlast, HostRange.without, if_neg hno,
      if_neg (Nat.lt_irrefl _), List.append_nil]
    split
    next hlt =>
      have hrest : r.hi - 1 + 1 - r.lo = r.hi - r.lo := by omega
      have hone : places [{ r with hi := r.hi - 1 }] =
          (List.range' r.lo (r.hi - r.lo)).map fun k => ({ r with hi := r.hi - 1 }, k) := by
        rw [places, List.flatMap_singleton, HostRange.numbers, hrest]
      simp only [hone, List.map_append, List.map_map, List.map_cons, List.map_nil]
      rfl
    next hlt =>
      have hrest : r.hi - r.lo = 0 := by omega
      rw [hrest]
      rfl

theorem hostrangePop_fst {r : HostRange} (ho : r.Ordered) (hf : r.names.length < 2147483648) :
    (hostrangePop r).1 = some (shiftName (r, r.hi)) := by
  cases hs : r.singlehost with
  | true =>
    have hlen : r.pfx.length ≤ r.pfx.length + r.width + 15 := by omega
    rw [hostrangePop, if_pos hs, shiftName, placeName, if_pos hs, List.take_of_length_le hlen]
  | false =>
    have hpos : 0 < hostrangeCount r := by
      rw [hostrangeCount_eq_length ho hf]
      exact names_length_pos ho
    rw [hostrangePop, hs, if_neg (by simp), if_pos hpos, shiftName, placeName, hs,
      if_neg (by simp), HostRange.nameAt]

/-- Popping a sound list. -/
theorem popAll_places : ∀ (fuel : Nat) (rs : List HostRange) (free : Nat), Sound rs →
    (names rs).length < fuel →
    popAll fuel (Hostlist.ofRanges rs free (names rs).length) =
      some ((places rs).map shiftName).reverse := by
  intro fuel
  induction fuel with
  | zero => intro rs free _ h; omega
  | succ fuel ih =>
    intro rs free h hfuel
    rw [popAll]
    rcases rs.eq_nil_or_concat' with rfl | ⟨as, r, rfl⟩
    · rfl
    · have ho : r.Ordered := h.ordered r (by simp)
      have hr : r.Ok := h.ok r (by simp)
      have hf : r.names.length < 2147483648 :=
        Nat.lt_of_le_of_lt (length_names_le_of_mem (by simp)) h.fits
      have hpos : 0 < (names (as ++ [r])).length := by
        have := names_length_pos ho
        have := @length_names_le_of_mem r (as ++ [r]) (by simp)
        omega
      obtain ⟨hsound, hnames⟩ := h.pop
      have hlen : ((names (as ++ [r])).length : Int) - 1 =
          (names (as ++ r.without r.hi)).length := by
        rw [hnames, List.length_dropLast]
        omega
      obtain ⟨free', hpop⟩ := hostlistPop_last as hr ho hf free
        (show (0 : Int) < (names (as ++ [r])).length by omega)
      rw [hpop, hostrangePop_fst ho hf, hlen, map_shiftName_concat as hr.toWf ho,
        List.reverse_append]
      simp only
      rw [ih _ free' hsound (by rw [hnames, List.length_dropLast]; omega)]
      rfl

/-- The number of hosts popped from a range. A range whose bounds are not in
order is taken for empty after the first. -/
def popCount (r : HostRange) : Nat := if r.Ordered then reach r else 1

theorem popCount_le (r : HostRange) : popCount r ≤ reach r := by
  unfold popCount
  split
  · exact Nat.le_refl _
  · exact reach_pos r

theorem popCount_pos (r : HostRange) : 0 < popCount r := by
  unfold popCount
  split
  · exact reach_pos r
  · exact Nat.one_pos

/-- What is left of a range after a pop: nothing, or a range with a host less. -/
theorem hostrangePop_rest {r : HostRange} (hr : r.Wf) (hf : reach r < 2147483648) :
    (∃ name, (hostrangePop r).1 = some name) ∧
      (hostrangeEmpty (hostrangePop r).2 = true ∨
        (hostrangePop r).2.Wf ∧ reach (hostrangePop r).2 < 2147483648 ∧
          popCount (hostrangePop r).2 + 1 ≤ popCount r) := by
  have hmax : ulongMax = 18446744073709551615 := rfl
  have hlo := hr.lo_lt
  have hhi := hr.hi_lt
  cases hs : r.singlehost with
  | true =>
    obtain ⟨h1, h2, -⟩ := hr.single hs
    rw [hostrangePop, if_pos hs]
    refine ⟨⟨r.pfx, rfl⟩, .inl (hostrangeEmpty_iff.mpr (.inl ?_))⟩
    show r.hi < ulong (r.lo + 1)
    rw [ulong_succ (by omega)]
    omega
  | false =>
    have hno : ¬ r.singlehost = true := by simp [hs]
    have hpos : hostrangeCount r > 0 := by
      rw [hostrangeCount, if_neg hno]
      unfold reach ulong at hf
      unfold ulong
      omega
    rw [hostrangePop, if_neg hno, if_pos hpos]
    refine ⟨⟨_, rfl⟩, ?_⟩
    by_cases h : r.lo < r.hi
    · right
      simp only [ulong_pred (show 0 < r.hi by omega) hhi]
      have ho : r.Ordered := fun _ => by omega
      have ho' : HostRange.Ordered { r with hi := r.hi - 1 } := fun _ => by
        show r.lo ≤ r.hi - 1
        omega
      have hwf : HostRange.Wf { r with hi := r.hi - 1 } :=
        (HostRange.Ok.of_bounds (r := { r with hi := r.hi - 1 }) hs hlo
          (show r.hi - 1 < 18446744073709551616 by omega)).toWf
      have hcount : reach { r with hi := r.hi - 1 } + 1 = reach r := by
        rw [reach_eq_length hwf ho', reach_eq_length hr ho, length_names, length_names]
        simp only [hs, Bool.false_eq_true, if_false]
        omega
      refine ⟨hwf, by omega, ?_⟩
      rw [popCount, popCount, if_pos ho, if_pos ho']
      omega
    · left
      rw [hostrangeEmpty_iff]
      show ulong ((r.hi : Int) - 1) < r.lo ∨ ulong ((r.hi : Int) - 1) = ulongMax
      by_cases h0 : r.hi = 0
      · right
        rw [h0]
        rfl
      · left
        rw [ulong_pred (by omega) hhi]
        omega

/-- A list that counts more hosts than can be popped ends in a pop from no
range. -/
theorem popAll_excess : ∀ (fuel : Nat) (rs : List HostRange) (free : Nat) (n : Int),
    (∀ r ∈ rs, r.Wf ∧ reach r < 2147483648) → ((rs.map popCount).sum : Int) < n →
    popAll fuel (Hostlist.ofRanges rs free n) = none := by
  intro fuel
  induction fuel with
  | zero => exact fun _ _ _ _ _ => rfl
  | succ fuel ih =>
    intro rs free n hok hn
    have hpos : 0 < n := by omega
    rw [popAll]
    rcases rs.eq_nil_or_concat' with rfl | ⟨as, r, rfl⟩
    · rw [hostlistPop, ofRanges_nhosts, if_pos hpos]
      rfl
    · have has : ∀ s ∈ as, s.Wf ∧ reach s < 2147483648 := fun s hs => hok s (by simp [hs])
      obtain ⟨hr, hf⟩ := hok r (by simp)
      obtain ⟨⟨name, hname⟩, hrest⟩ := hostrangePop_rest hr hf
      have hsum : ((as ++ [r]).map popCount).sum = (as.map popCount).sum + popCount r := by
        simp
      have hone := popCount_pos r
      rw [hostlistPop_concat as r free hpos, hname]
      simp only
      by_cases he : hostrangeEmpty (hostrangePop r).2 = true
      · rw [if_pos he, ih as _ _ has (by omega)]
        rfl
      · obtain ⟨hwf, hreach, hless⟩ := hrest.resolve_left he
        rw [if_neg he, ih (as ++ [(hostrangePop r).2]) _ _ ?_ ?_]
        · rfl
        · intro s hs
          rcases List.mem_append.mp hs with hs | hs
          · exact has s hs
          · rw [List.mem_singleton.mp hs]
            exact ⟨hwf, hreach⟩
        · simp only [List.map_append, List.map_cons, List.map_nil, List.sum_append,
            List.sum_cons, List.sum_nil]
          omega

/-! ## Agreement -/

theorem hosts_eq_reach {rs : List HostRange} (hok : ∀ r ∈ rs, r.Wf)
    (hf : ∀ r ∈ rs, reach r < 2147483648) : hosts rs = (rs.map reach).sum := by
  rw [hosts]
  congr 1
  refine List.map_congr_left fun r hr => ?_
  have hfits := hf r hr
  unfold hostrangeCount reach at *
  split
  next hs =>
    obtain ⟨h1, h2, -⟩ := (hok r hr).single hs
    simp [h1, h2, ulong]
  next =>
    unfold ulong at *
    omega

theorem names_length_eq_reach {rs : List HostRange} (hok : ∀ r ∈ rs, r.Wf)
    (ho : ∀ r ∈ rs, r.Ordered) : (names rs).length = (rs.map reach).sum := by
  rw [names, List.length_flatMap]
  congr 1
  exact List.map_congr_left fun r hr => (reach_eq_length (hok r hr) (ho r hr)).symm

/-- A range whose bounds are not in order has more hosts than are popped from it. -/
theorem sum_popCount_lt {rs : List HostRange} (hok : ∀ r ∈ rs, r.Wf) {r : HostRange}
    (hr : r ∈ rs) (ho : ¬ r.Ordered) : (rs.map popCount).sum < (rs.map reach).sum := by
  apply List.sum_lt_sum _ _ fun s _ => popCount_le s
  refine ⟨r, hr, ?_⟩
  have hlo := (hok r hr).lo_lt
  have hhi := (hok r hr).hi_lt
  have hwrong : r.singlehost = false ∧ r.hi < r.lo := by
    unfold HostRange.Ordered at ho
    push Not at ho
    exact ho
  rw [popCount, if_neg ho, reach]
  unfold ulong
  omega

/-- `hostlist_next`, `hostlist_nth`, `hostlist_shift` and `hostlist_pop` give the
same sequence of names exactly when the hosts can be counted in an `int`, the
bounds of every range are in order, no range of several hosts reaches up to the
largest number, and every name is printed alike into both buffers. -/
theorem agree_iff {hl : Hostlist} (hb : Built hl) {rs : List HostRange}
    (hrs : hl.ranges = some rs) : Agree hl ↔ Listed rs := by
  obtain ⟨rs', h⟩ := hb.holds
  obtain rfl : rs' = rs := Option.some.inj (h.ranges.symm.trans hrs)
  obtain ⟨⟨free, rfl⟩, hok⟩ := h
  have hwf : ∀ r ∈ rs', r.Wf := fun r hr => (hok r hr).toWf
  constructor
  · rintro ⟨ns, ⟨f1, hnext⟩, hnth, ⟨f2, hshift⟩, ⟨f3, hpop⟩⟩
    -- as many names are walked as hosts are counted
    have hlen := length_nextAll hnext
    have hcount := length_of_mapM hnth
    rw [List.length_range, ofRanges_nhosts] at hcount
    have hsmall := int32_lt (hosts rs')
    have hfits : ∀ r ∈ rs', reach r < 2147483648 := by
      intro r hr
      have hle := List.single_le_sum (fun _ _ => Nat.zero_le _) (reach r)
        (List.mem_map_of_mem (f := reach) hr)
      omega
    have hsum := hosts_eq_reach hwf hfits
    have hn : int32 (hosts rs') = (hosts rs' : Nat) := int32_of_range (by omega) (by omega)
    have ho : ∀ r ∈ rs', r.Ordered := by
      intro r hr
      by_contra hno
      have hless := sum_popCount_lt hwf hr hno
      rw [popAll_excess f3 rs' free _ (fun s hs => ⟨hwf s hs, hfits s hs⟩)
        (by rw [hn]; omega)] at hpop
      cases hpop
    have hnames := names_length_eq_reach hwf ho
    have hs : Sound rs' := ⟨hok, ho, by omega⟩
    have heq : int32 (hosts rs') = ((names rs').length : Nat) := by omega
    rw [heq] at hnext hnth hshift
    have htop : ∀ r ∈ rs', ¬ r.TopCut r.lo := by
      intro r hr hc
      rw [drain_excess hok ho hs.fits f2 free (.inr ⟨rfl, r, hr, hc⟩)] at hshift
      cases hshift
    refine ⟨ho, hs.fits, htop, fun p hp => (nextName_eq_iff p).mp ?_⟩
    -- both sequences print every place
    have hmore := drain_mono (Nat.le_add_right f2 ((names rs').length + 1)) hshift
    rw [drain_sound hs htop free (by omega)] at hmore
    rw [nthAll_places hs free, ← Option.some.inj hmore] at hnth
    exact mapM_eq_map_iff.mp hnth p hp
  · rintro ⟨ho, hfits, htop, hprint⟩
    have hs : Sound rs' := ⟨hok, ho, hfits⟩
    have heq : int32 (hosts rs') = ((names rs').length : Nat) := by
      rw [hs.hosts_eq]
      exact int32_of_range (by omega) (by omega)
    have hnames : (places rs').mapM nextName = some ((places rs').map shiftName) :=
      mapM_eq_map_iff.mpr fun p hp => (nextName_eq_iff p).mpr (hprint p hp)
    rw [heq]
    refine ⟨(places rs').map shiftName, ⟨(names rs').length + 1, ?_⟩, ?_,
      ⟨(names rs').length + 1, drain_sound hs htop free (Nat.lt_succ_self _)⟩,
      (names rs').length + 1, popAll_places _ rs' free hs (Nat.lt_succ_self _)⟩
    · rw [nextAll_places hs (Nat.lt_succ_self _), hnames]
    · rw [nthAll_places hs free, hnames]

/-- Three hosts with a number and one without. -/
theorem agree_example : ∃ hl, hostlistCreate "a[1-3],b".toList = .ok hl ∧ Agree hl := by
  have hcreate : hostlistCreate "a[1-3],b".toList =
      .ok (Hostlist.ofRanges [hostrangeCreate ['a'] 1 3 1, hostrangeCreateSingle ['b']] 14 4) :=
    rfl
  refine ⟨_, hcreate, (agree_iff (.create hcreate) (ofRanges_ranges _ _ _)).mpr ⟨?_, ?_, ?_, ?_⟩⟩
  · decide
  · decide
  · decide
  · intro p hp
    have hall : ∀ p ∈ places [hostrangeCreate ['a'] 1 3 1, hostrangeCreateSingle ['b']],
        (p.1.singlehost = false → p.1.pfx.length ≤ maxHostNameLen + 15) ∧
          min (maxHostNameLen + 14) (placeName p).length =
            min (p.1.pfx.length + p.1.width + 15) (placeName p).length := by
      decide
    exact ⟨(hall p hp).1, (hall p hp).2⟩

/-- Two hosts with the largest numbers: the first shift drops the range, and the
second finds none. -/
theorem not_agree_top : ¬ ∀ hl, Built hl → Agree hl := by
  intro h
  have hcreate : hostlistCreate "a[18446744073709551614-18446744073709551615]".toList =
      .ok (Hostlist.ofRanges
        [hostrangeCreate ['a'] 18446744073709551614 18446744073709551615 20] 15 2) := by
    decide +kernel
  obtain ⟨ns, -, -, ⟨fuel, hshift⟩, -⟩ := h _ (.create hcreate)
  have hp : HostRange.Pushed
      (hostrangeCreate ['a'] 18446744073709551614 18446744073709551615 20) :=
    hostrangeCreate_pushed (by decide) (by decide)
  rw [drain_excess ?_ ?_ ?_ fuel 15 (.inr ⟨?_, _, List.mem_singleton_self _, ?_⟩)] at hshift
  · cases hshift
  · exact List.forall_mem_singleton.mpr hp.toOk
  · exact List.forall_mem_singleton.mpr hp.ordered
  · decide
  · decide
  · decide

end Slurm.Hosts
