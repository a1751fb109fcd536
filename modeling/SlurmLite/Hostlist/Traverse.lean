import SlurmLite.Hostlist.Iterate

/-!
# Removing hosts on the way

A caller walks a list with `hostlist_next` and takes some of the hosts off it
with `hostlist_remove` right after they were returned.

* **Cursors** (`hostlistNext_cursor`, `hostlistRemove_cursor`): the array and its
  iterator are the ranges before the iterator, the range it stands in with the
  ones behind it, and the number of hosts it has passed in there.
* **A smooth removal** (`Cursor.remove_smooth`) takes the host off those passed
  and leaves those ahead. `hostlist_delete_range` moves the iterator to the
  range before and keeps its depth, so that hosts of a longer range are ahead
  once more (`Cursor.remove_counts`).
* **A traversal** (`Cursor.run_iff`) is smooth exactly when the choice is
  `Spared`.
-/

namespace Slurm.Hosts

open Base.Text Base.CLib Base.MapM

/-! ## The functions -/

/-- `hostlist_iterator_reset`. -/
def hostlistIteratorReset (i : Iterator) : Iterator := { i with idx := 0, depth := -1 }

/-- `hostlist_shift_iterators`, for one iterator of the list. -/
def hostlistShiftIterators (idx : Nat) (depth : Int) (n : Nat) (i : Iterator) : Iterator :=
  if n = 0 then
    if i.idx = idx ∧ i.depth ≥ depth then
      { i with depth := if i.depth > -1 then i.depth - 1 else -1 }
    else i
  else if i.idx ≥ idx then
    if n ≤ i.idx then { i with idx := i.idx - n } else hostlistIteratorReset i
  else i

/-- The loop over the iterators in `hostlist_insert_range`, for one of them. -/
def insertIterator (n : Nat) (i : Iterator) : Iterator :=
  if i.idx ≥ n then { i with idx := i.idx + 1 } else i

/-- `hostlist_remove` on a list with one iterator. -/
def hostlistRemove (hl : Hostlist) (i : Iterator) : Option (Hostlist × Iterator) :=
  (hl.range i.idx).map fun hr =>
    let p := hostrangeDeleteHost hr (ulong (hr.lo + i.depth))
    let hl := { hl.setSlot i.idx (.live p.2) with nhosts := int32 (hl.nhosts - 1) }
    match p.1 with
    | some new =>
      let i := insertIterator (i.idx + 1) i
      (hostlistInsertRange hl new (i.idx + 1), { i with idx := i.idx + 1, depth := -1 })
    | none =>
      if hostrangeEmpty p.2 then
        (hostlistDeleteRange hl i.idx, hostlistShiftIterators i.idx 0 1 i)
      else (hl, { i with depth := i.depth - 1 })

/-- A walk to the end that removes the hosts of a choice: the names returned and
the list it leaves. The hosts are counted as they are returned. -/
def traverse (sel : Nat → Bool) : Nat → Nat → Hostlist → Iterator →
    Option (List (List Char) × Hostlist)
  | 0, _, _, _ => none
  | fuel + 1, n, hl, i =>
    match hostlistNext hl i with
    | none => none
    | some (none, _) => some ([], hl)
    | some (some name, i) =>
      (if sel n then hostlistRemove hl i else some (hl, i)).bind fun p =>
        (traverse sel fuel (n + 1) p.1 p.2).map fun q => (name :: q.1, q.2)

/-- The entries of a list that are not chosen, the first of them with number `n`. -/
def unchosen {α : Type} (sel : Nat → Bool) : Nat → List α → List α
  | _, [] => []
  | n, a :: l => if sel n then unchosen sel (n + 1) l else a :: unchosen sel (n + 1) l

/-- The traversal returns every host of the list once and in order, and leaves
the hosts that are not chosen. -/
def Traverses (sel : Nat → Bool) (hl : Hostlist) : Prop :=
  ∃ rs, hl.ranges = some rs ∧ ∃ fuel hl' rs',
    traverse sel fuel 0 hl hostlistIteratorCreate = some (names rs, hl') ∧
    hl'.ranges = some rs' ∧ names rs' = unchosen sel 0 (names rs)

/-- What a choice has to look like from host `n` on, where the stretch of
neighbours left last has `e` hosts and the one being walked has `d`. Where a
chosen host has none left right before it in its range, the stretch left last is
at most one host long if the host ends the range, and the range does not reach
up to the largest number if it does not. An `int` counts every stretch. -/
def Spared (sel : Nat → Bool) : Nat → Nat → Nat → List (HostRange × Nat) → Prop
  | _, _, _, [] => True
  | n, e, d, (r, k) :: ps =>
    if sel n then
      (d = 0 → if k = r.hi then e ≤ 1 else r.hi ≠ ulongMax) ∧
        Spared sel (n + 1) (if d = 0 then e else d) 0 ps
    else d + 1 < 2147483648 ∧
      if k = r.hi then Spared sel (n + 1) (d + 1) 0 ps else Spared sel (n + 1) e (d + 1) ps

instance decidableSpared (sel : Nat → Bool) : ∀ (ps : List (HostRange × Nat)) (n e d : Nat),
    Decidable (Spared sel n e d ps)
  | [], _, _, _ => isTrue trivial
  | (r, k) :: ps, n, e, d =>
    have := decidableSpared sel ps
    inferInstanceAs (Decidable (if sel n then
        (d = 0 → if k = r.hi then e ≤ 1 else r.hi ≠ ulongMax) ∧
          Spared sel (n + 1) (if d = 0 then e else d) 0 ps
      else d + 1 < 2147483648 ∧
        if k = r.hi then Spared sel (n + 1) (d + 1) 0 ps
        else Spared sel (n + 1) e (d + 1) ps))

/-! ## Cursors -/

/-- A list and an iterator on it: the ranges before the iterator, the range it
stands in with those behind, and the number of hosts it has passed in there. -/
structure Cursor where
  before : List HostRange
  here : List HostRange
  passed : Nat
deriving DecidableEq

namespace Cursor

/-- The ranges of the list. -/
def ranges (c : Cursor) : List HostRange := c.before ++ c.here

/-- The iterator. -/
def iterator (c : Cursor) : Iterator := { idx := c.before.length, depth := (c.passed : Int) - 1 }

/-- The places ahead of the iterator. -/
def ahead (c : Cursor) : List (HostRange × Nat) :=
  match c.here with
  | [] => []
  | r :: bs => (r.numbers.drop c.passed).map (fun k => (r, k)) ++ places bs

/-- The places behind it. -/
def behind (c : Cursor) : List (HostRange × Nat) :=
  places c.before ++
    match c.here with
    | [] => []
    | r :: _ => (r.numbers.take c.passed).map fun k => (r, k)

/-- The next place, and the cursor behind it. -/
def next (c : Cursor) : Option ((HostRange × Nat) × Cursor) :=
  match c.here with
  | [] => none
  | r :: bs =>
    if c.passed < r.names.length then
      some ((r, r.lo + c.passed), { c with passed := c.passed + 1 })
    else
      match bs with
      | [] => none
      | s :: bs => some ((s, s.lo), { before := c.before ++ [r], here := s :: bs, passed := 1 })

/-- The cursor after the range it stands in was deleted. -/
def delete (c : Cursor) : Cursor :=
  match c.before.getLast? with
  | none => { c with here := c.here.tail, passed := 0 }
  | some q => { before := c.before.dropLast, here := q :: c.here.tail, passed := 1 }

/-- The cursor after the host it has passed last was removed. -/
def remove (c : Cursor) : Cursor :=
  match c.here with
  | [] => c
  | r :: bs =>
    if c.passed ≤ 1 then
      if r.lo < r.hi ∧ r.hi ≠ ulongMax then
        { c with here := { r with lo := r.lo + 1 } :: bs, passed := 0 }
      else c.delete
    else if c.passed = r.names.length then
      { c with here := { r with hi := r.hi - 1 } :: bs, passed := c.passed - 1 }
    else
      { before := c.before ++ [{ r with hi := r.lo + c.passed - 2 }]
        here := { r with lo := r.lo + c.passed } :: bs
        passed := 0 }

/-- Ranges as a list holds them, with the iterator inside. -/
structure Ok (c : Cursor) : Prop where
  ranges : ∀ r ∈ c.ranges, r.Wf ∧ r.Ordered
  passed : ∀ r ∈ c.here.head?, c.passed ≤ r.names.length
  nil : c.here = [] → c.passed = 0

end Cursor

/-! ## The source follows the cursor -/

section

variable {free : Nat} {m : Int}

/-- `hostlist_next` returns the next place of a cursor. -/
theorem hostlistNext_cursor {c : Cursor} (h : c.Ok) (hfits : c.passed < 2147483648) :
    (c.next = none ∧ ∃ i, hostlistNext (Hostlist.ofRanges c.ranges free m) c.iterator =
        some (none, i)) ∨
      ∃ p c', c.next = some (p, c') ∧ c'.ranges = c.ranges ∧
        hostlistNext (Hostlist.ofRanges c.ranges free m) c.iterator =
          (nextName p).map fun name => (some name, c'.iterator) := by
  obtain ⟨as, here, d⟩ := c
  have hok := h.ranges
  rcases here with _ | ⟨r, bs⟩
  · obtain rfl : d = 0 := h.nil rfl
    left
    refine ⟨rfl, { idx := as.length, depth := ((0 : Nat) : Int) - 1 }, ?_⟩
    simp only [Cursor.ranges, Cursor.iterator, List.append_nil]
    exact hostlistNext_end
  · have hr : ∀ s ∈ r :: bs, s.Wf ∧ s.Ordered := fun s hs => hok s (by
      simp only [Cursor.ranges, List.mem_append]
      exact .inr hs)
    have hreach := reach_eq_length (hr r (by simp)).1 (hr r (by simp)).2
    have hlo : ∀ (s : HostRange) (j : Nat), s.Wf → j < s.names.length →
        ulong ((s.lo : Int) + (j : Nat)) = s.lo + j := by
      intro s j hs hj
      have hcast : (s.lo : Int) + (j : Nat) = ((s.lo + j : Nat) : Int) := by push_cast; rfl
      rw [hcast]
      exact ulong_of_lt (hs.number_lt hj)
    have hadvance := @iteratorAdvance_in as bs r free m ((d : Int) - 1) (by omega)
      (by simp only at hfits; omega)
    have hone : (d : Int) - 1 + 1 = d := by omega
    rw [hone, hreach] at hadvance
    simp only [Cursor.next, Cursor.ranges, Cursor.iterator]
    by_cases hd : d < r.names.length
    · right
      rw [if_pos hd]
      refine ⟨_, _, rfl, rfl, ?_⟩
      rw [if_pos (by exact_mod_cast hd)] at hadvance
      rw [hostlistNext, hadvance, Option.bind_some, ofRanges_nranges, if_neg (by simp),
        ofRanges_range, Option.bind_some, hostrangeString, hlo r d (hr r (by simp)).1 hd]
      push_cast
      rw [Int.add_sub_cancel]
    · rw [if_neg (by exact_mod_cast hd)] at hadvance
      rw [if_neg hd]
      rcases bs with _ | ⟨s, bs⟩
      · left
        refine ⟨rfl, { idx := as.length + 1, depth := 0 }, ?_⟩
        rw [hostlistNext, hadvance, Option.bind_some]
        exact if_pos (by simp)
      · right
        have hlist : as ++ r :: s :: bs = (as ++ [r]) ++ s :: bs := by simp
        have hlen : as.length + 1 = (as ++ [r]).length := by simp
        have hs := hr s (by simp)
        refine ⟨_, _, rfl, hlist.symm, ?_⟩
        have hnum := hlo s 0 hs.1 (names_length_pos hs.2)
        rw [hostlistNext, hadvance, Option.bind_some, hlist, hlen, ofRanges_nranges,
          if_neg (by simp), ofRanges_range, Option.bind_some, hostrangeString]
        rw [Nat.cast_zero] at hnum
        rw [hnum]
        rfl

/-- No step is taken from a depth an `int` does not hold. -/
theorem hostlistNext_deep {c : Cursor} (h : c.Ok) (hdeep : ¬ c.passed < 2147483648) :
    hostlistNext (Hostlist.ofRanges c.ranges free m) c.iterator = none := by
  obtain ⟨as, here, d⟩ := c
  rcases here with _ | ⟨r, bs⟩
  · obtain rfl : d = 0 := h.nil rfl
    simp at hdeep
  · simp only [Cursor.ranges, Cursor.iterator] at hdeep ⊢
    rw [hostlistNext, iteratorAdvance, ofRanges_nranges, if_neg (by simp), ofRanges_range,
      Option.bind_some]
    simp only
    rw [if_pos (by omega)]
    rfl

theorem setSlot_counted (as bs : List HostRange) (r r' : HostRange) (n : Int) :
    ({ (Hostlist.ofRanges (as ++ r :: bs) free m).setSlot as.length (.live r') with
      nhosts := n } : Hostlist) = Hostlist.ofRanges (as ++ r' :: bs) free n := by
  rw [setSlot_ofRanges]
  rfl

theorem Cursor.delete_ranges (as bs : List HostRange) (r : HostRange) (d : Nat) :
    (Cursor.delete { before := as, here := r :: bs, passed := d }).ranges = as ++ bs := by
  unfold Cursor.delete Cursor.ranges
  rcases as.eq_nil_or_concat' with rfl | ⟨as, q, rfl⟩
  · rfl
  · simp

/-- `hostlist_shift_iterators` moves the iterator of a deleted range. -/
theorem hostlistShiftIterators_delete (as bs : List HostRange) (r : HostRange) :
    hostlistShiftIterators as.length 0 1 { idx := as.length, depth := 0 } =
      (Cursor.delete { before := as, here := r :: bs, passed := 1 }).iterator := by
  unfold hostlistShiftIterators Cursor.delete
  rw [if_neg (by simp), if_pos (Nat.le_refl _)]
  rcases as.eq_nil_or_concat' with rfl | ⟨as, q, rfl⟩
  · rfl
  · rw [if_pos (by simp)]
    simp [Cursor.iterator]

/-- `hostlist_remove` removes the lowest host of a range. -/
theorem hostlistRemove_lowest {as bs : List HostRange} {r : HostRange}
    (h : Cursor.Ok ⟨as, r :: bs, 1⟩) :
    ∃ free' m', hostlistRemove (Hostlist.ofRanges (as ++ r :: bs) free m)
        { idx := as.length, depth := 0 } =
      some (Hostlist.ofRanges (Cursor.remove ⟨as, r :: bs, 1⟩).ranges free' m',
        (Cursor.remove ⟨as, r :: bs, 1⟩).iterator) := by
  have hmax : ulongMax = 18446744073709551615 := rfl
  obtain ⟨hr, ho⟩ := h.ranges r (by simp [Cursor.ranges])
  have hlo := hr.lo_lt
  have hhi := hr.hi_lt
  have hnum : ulong ((r.lo : Int) + 0) = r.lo := by
    rw [Int.add_zero]
    exact ulong_of_lt hlo
  rw [hostlistRemove, ofRanges_range, Option.map_some]
  simp only [setSlot_counted, hnum, Cursor.remove]
  have hle : r.lo ≤ r.hi := by
    cases hs : r.singlehost with
    | true =>
      obtain ⟨h1, h2, -⟩ := hr.single hs
      omega
    | false => exact ho hs
  have hdel : hostrangeDeleteHost r r.lo = (none, { r with lo := ulong ((r.lo : Int) + 1) }) := by
    rw [hostrangeDeleteHost, if_pos rfl]
  rw [hdel, if_pos (Nat.le_refl _)]
  simp only
  by_cases hkeep : r.lo < r.hi ∧ r.hi ≠ ulongMax
  · -- the range keeps its upper hosts
    have hup : ulong ((r.lo : Int) + 1) = r.lo + 1 := ulong_succ (by omega)
    have hfull : ¬ hostrangeEmpty { r with lo := r.lo + 1 } = true := by
      rw [hostrangeEmpty_iff]
      simp only [not_or]
      exact ⟨by omega, hkeep.2⟩
    rw [hup, if_neg hfull, if_pos hkeep]
    exact ⟨free, _, rfl⟩
  · -- nothing is left of it
    have hempty : hostrangeEmpty { r with lo := ulong ((r.lo : Int) + 1) } = true := by
      rw [hostrangeEmpty_iff]
      by_cases htop : r.hi = ulongMax
      · exact .inr htop
      · left
        have hge : ¬ r.lo < r.hi := fun hlt => hkeep ⟨hlt, htop⟩
        show r.hi < ulong ((r.lo : Int) + 1)
        rw [ulong_succ (by omega)]
        omega
    have hshift := hostlistShiftIterators_delete as bs r
    rw [if_pos hempty, if_neg hkeep, Cursor.delete_ranges, hostlistDeleteRange_ofRanges, hshift]
    exact ⟨free + 1, _, rfl⟩

/-- `hostlist_remove` removes a host above the lowest of its range. -/
theorem hostlistRemove_above {as bs : List HostRange} {r : HostRange} {j : Nat} (hj : j ≠ 0)
    (h : Cursor.Ok ⟨as, r :: bs, j + 1⟩) :
    ∃ free' m', hostlistRemove (Hostlist.ofRanges (as ++ r :: bs) free m)
        { idx := as.length, depth := j } =
      some (Hostlist.ofRanges (Cursor.remove ⟨as, r :: bs, j + 1⟩).ranges free' m',
        (Cursor.remove ⟨as, r :: bs, j + 1⟩).iterator) := by
  have hmax : ulongMax = 18446744073709551615 := rfl
  obtain ⟨hr, ho⟩ := h.ranges r (by simp [Cursor.ranges])
  have hd : j + 1 ≤ r.names.length := h.passed r rfl
  have hlo := hr.lo_lt
  have hhi := hr.hi_lt
  have hnum : ulong ((r.lo : Int) + j) = r.lo + j := by
    have hcast : (r.lo : Int) + j = ((r.lo + j : Nat) : Int) := by push_cast; rfl
    rw [hcast]
    exact ulong_of_lt (hr.number_lt hd)
  rw [hostlistRemove, ofRanges_range, Option.map_some]
  simp only [setSlot_counted, hnum, Cursor.remove]
  have hs : r.singlehost = false := by
    cases hs : r.singlehost with
    | true =>
      rw [length_names, hs] at hd
      simp only [if_true] at hd
      omega
    | false => rfl
  have hle : r.lo + j ≤ r.hi := by
    rw [length_names, hs] at hd
    simp only [Bool.false_eq_true, if_false] at hd
    omega
  have hlen : r.names.length = r.hi + 1 - r.lo := by simp [length_names, hs]
  rw [if_neg (by omega : ¬ j + 1 ≤ 1)]
  by_cases htop : r.lo + j = r.hi
  · -- the highest host goes
    have hdown : ulong ((r.hi : Int) - 1) = r.hi - 1 := ulong_pred (by omega) hhi
    have hfull : ¬ hostrangeEmpty { r with hi := r.hi - 1 } = true := by
      rw [hostrangeEmpty_iff]
      simp only [not_or]
      omega
    have hdel : hostrangeDeleteHost r (r.lo + j) = (none, { r with hi := r.hi - 1 }) := by
      rw [hostrangeDeleteHost, if_neg (by omega), if_pos htop, hdown]
    have hall : j + 1 = r.names.length := by omega
    rw [hdel, if_pos hall]
    simp only
    rw [if_neg hfull]
    refine ⟨free, int32 (m - 1), ?_⟩
    simp [Cursor.ranges, Cursor.iterator]
  · -- the range is split
    have hdown : ulong (((r.lo + j : Nat) : Int) - 1) = r.lo + j - 1 :=
      ulong_pred (by omega) (by omega)
    have hup : ulong (((r.lo + j : Nat) : Int) + 1) = r.lo + (j + 1) := ulong_succ (by omega)
    have hmid : r.lo + (j + 1) - 2 = r.lo + j - 1 := by omega
    have hdel : hostrangeDeleteHost r (r.lo + j) =
        (some { r with lo := r.lo + (j + 1) }, { r with hi := r.lo + j - 1 }) := by
      rw [hostrangeDeleteHost, if_neg (by omega), if_neg htop, hdown, hup, hostrangeCopy_eq hr]
    have hwf : HostRange.Wf { r with lo := r.lo + (j + 1) } :=
      (HostRange.Ok.of_bounds (r := { r with lo := r.lo + (j + 1) }) hs
        (show r.lo + (j + 1) < _ by omega) hhi).toWf
    obtain ⟨free', hins⟩ := hostlistInsertRange_ofRanges (as ++ [{ r with hi := r.lo + j - 1 }])
      bs free (int32 (m - 1)) { r with lo := r.lo + (j + 1) }
    rw [hostrangeCopy_eq hwf] at hins
    simp only [List.append_assoc, List.singleton_append, List.length_append,
      List.length_singleton] at hins
    have hiter : insertIterator (as.length + 1) { idx := as.length, depth := (j : Int) } =
        { idx := as.length, depth := (j : Int) } := if_neg (Nat.not_succ_le_self _)
    have hpart : ¬ j + 1 = r.names.length := by omega
    rw [hdel, if_neg hpart, hmid]
    simp only [hiter, ofRanges_nhosts, hins]
    refine ⟨free', int32 (m - 1), ?_⟩
    simp [Cursor.ranges, Cursor.iterator]

/-- `hostlist_remove` removes the host a cursor has passed last. -/
theorem hostlistRemove_cursor {c : Cursor} (h : c.Ok) (hpos : 0 < c.passed) :
    ∃ free' m', hostlistRemove (Hostlist.ofRanges c.ranges free m) c.iterator =
      some (Hostlist.ofRanges c.remove.ranges free' m', c.remove.iterator) := by
  obtain ⟨as, here, d⟩ := c
  rcases here with _ | ⟨r, bs⟩
  · have hzero : d = 0 := h.nil rfl
    simp only at hpos
    omega
  · simp only at hpos
    obtain ⟨j, rfl⟩ : ∃ j, d = j + 1 := ⟨d - 1, by omega⟩
    have hiter : (Cursor.iterator { before := as, here := r :: bs, passed := j + 1 }) =
        { idx := as.length, depth := j } := by
      simp [Cursor.iterator]
    rw [hiter]
    by_cases hj : j = 0
    · subst hj
      exact hostlistRemove_lowest h
    · exact hostlistRemove_above hj h

end

/-! ## One step of a cursor -/

/-- The number of hosts of the last range of a list. -/
def lastLength (rs : List HostRange) : Nat :=
  match rs.getLast? with
  | none => 0
  | some q => q.names.length

@[simp] theorem lastLength_concat (rs : List HostRange) (q : HostRange) :
    lastLength (rs ++ [q]) = q.names.length := by
  simp [lastLength]

/-- The hosts in the stretch left last, and in the one being walked. -/
def Cursor.left (c : Cursor) : Nat × Nat :=
  match c.here with
  | [] => (lastLength c.before, 0)
  | r :: _ =>
    if c.passed < r.names.length then (lastLength c.before, c.passed) else (c.passed, 0)

/-- A place, whatever hosts its range has lost at the lower end. -/
def view (p : HostRange × Nat) : HostRange × Nat := ({ p.1 with lo := 0 }, p.2)

theorem spared_view (sel : Nat → Bool) : ∀ (ps : List (HostRange × Nat)) (n e d : Nat),
    Spared sel n e d (ps.map view) ↔ Spared sel n e d ps
  | [], _, _, _ => Iff.rfl
  | (r, k) :: ps, n, e, d => by
    have ih := spared_view sel ps
    show Spared sel n e d (({ r with lo := 0 }, k) :: ps.map view) ↔ _
    unfold Spared
    simp only [ih]

theorem drop_numbers {r : HostRange} {d : Nat} (hr : r.Wf) (hd : d < r.names.length) :
    r.numbers.drop d = (r.lo + d) :: r.numbers.drop (d + 1) := by
  rw [← length_numbers hr] at hd
  rw [List.drop_eq_getElem_cons hd]
  simp [HostRange.numbers]

theorem take_numbers {r : HostRange} {d : Nat} (hr : r.Wf) (hd : d < r.names.length) :
    r.numbers.take (d + 1) = r.numbers.take d ++ [r.lo + d] := by
  rw [← length_numbers hr] at hd
  rw [List.take_succ_eq_append_getElem hd]
  simp [HostRange.numbers]

theorem places_append (rs ss : List HostRange) : places (rs ++ ss) = places rs ++ places ss :=
  List.flatMap_append

theorem places_cons (r : HostRange) (rs : List HostRange) :
    places (r :: rs) = r.numbers.map (fun k => (r, k)) ++ places rs := List.flatMap_cons

/-- A cursor cuts the places of its list in two. -/
theorem Cursor.behind_append_ahead (c : Cursor) : c.behind ++ c.ahead = places c.ranges := by
  obtain ⟨as, here, d⟩ := c
  rw [Cursor.ranges, places_append, Cursor.behind, Cursor.ahead]
  rcases here with _ | ⟨r, bs⟩
  · simp [places]
  · simp only [places_cons, List.append_assoc]
    rw [← List.append_assoc (List.map _ _) (List.map _ _), ← List.map_append,
      List.take_append_drop]

/-- What `hostlist_next` finds behind a cursor, and how it leaves it. -/
theorem Cursor.next_cases {c : Cursor} (h : c.Ok) :
    (c.next = none ∧ c.ahead = []) ∨
      ∃ as r bs d, c.next = some ((r, r.lo + d), ⟨as, r :: bs, d + 1⟩) ∧
        (⟨as, r :: bs, d + 1⟩ : Cursor).Ok ∧ d ≤ c.passed ∧ c.left = (lastLength as, d) ∧
        c.ranges = as ++ r :: bs ∧
        c.ahead = (r, r.lo + d) :: (⟨as, r :: bs, d + 1⟩ : Cursor).ahead ∧
        (⟨as, r :: bs, d + 1⟩ : Cursor).behind = c.behind ++ [(r, r.lo + d)] := by
  obtain ⟨as, here, d⟩ := c
  have hok := h.ranges
  rcases here with _ | ⟨r, bs⟩
  · exact .inl ⟨rfl, rfl⟩
  obtain ⟨hr, ho⟩ := hok r (by simp [Cursor.ranges])
  by_cases hd : d < r.names.length
  · right
    refine ⟨as, r, bs, d, if_pos hd, ⟨hok, ?_, ?_⟩, Nat.le_refl d, if_pos hd, rfl, ?_, ?_⟩
    · intro s hs
      obtain rfl := Option.some.inj hs
      exact hd
    · intro hnil
      cases hnil
    · simp only [Cursor.ahead]
      rw [drop_numbers hr hd]
      rfl
    · simp only [Cursor.behind]
      rw [take_numbers hr hd, List.map_append, ← List.append_assoc]
      rfl
  · have hall : d = r.names.length := Nat.le_antisymm (h.passed r rfl) (Nat.le_of_not_lt hd)
    have hcut : r.numbers.drop d = [] := by
      rw [List.drop_eq_nil_iff, length_numbers hr]
      exact Nat.le_of_not_lt hd
    rcases bs with _ | ⟨s, bs⟩
    · left
      refine ⟨if_neg hd, ?_⟩
      simp [Cursor.ahead, hcut, places]
    · right
      obtain ⟨hs, hso⟩ := hok s (by simp [Cursor.ranges])
      have hpos := names_length_pos hso
      have hlist : as ++ r :: s :: bs = (as ++ [r]) ++ s :: bs := by simp
      refine ⟨as ++ [r], s, bs, 0, if_neg hd, ⟨?_, ?_, ?_⟩, Nat.zero_le _, ?_, hlist, ?_, ?_⟩
      · intro t ht
        apply hok t
        simp only [Cursor.ranges] at ht ⊢
        rw [hlist]
        exact ht
      · intro t ht
        obtain rfl := Option.some.inj ht
        exact hpos
      · intro hnil
        cases hnil
      · rw [Cursor.left, lastLength_concat]
        simp only
        rw [if_neg hd, hall]
      · have hfirst := drop_numbers hs hpos
        rw [List.drop_zero] at hfirst
        simp only [Cursor.ahead]
        rw [hcut, places_cons, hfirst]
        rfl
      · have htake : r.numbers.take d = r.numbers := by
          rw [List.take_of_length_le]
          rw [length_numbers hr]
          exact Nat.le_of_not_lt hd
        simp only [Cursor.behind]
        rw [take_numbers hs hpos, htake, places_append, List.append_assoc]
        simp [places]

/-! ## Removals -/

theorem HostRange.Wf.lo_le {r : HostRange} (hr : r.Wf) (ho : r.Ordered) : r.lo ≤ r.hi := by
  cases hs : r.singlehost with
  | true =>
    obtain ⟨h1, h2, -⟩ := hr.single hs
    omega
  | false => exact ho hs

theorem HostRange.Wf.length_names {r : HostRange} (hr : r.Wf) :
    r.names.length = r.hi + 1 - r.lo := by
  rw [← length_numbers hr, HostRange.numbers, List.length_range']

theorem HostRange.Wf.not_single {r : HostRange} (hr : r.Wf) (h : 0 < r.hi) :
    r.singlehost = false := by
  cases hs : r.singlehost with
  | true =>
    obtain ⟨-, h2, -⟩ := hr.single hs
    omega
  | false => rfl

/-- A part of a range. -/
theorem HostRange.Wf.part {r : HostRange} (hr : r.Wf) {lo hi : Nat} (h0 : 0 < r.hi)
    (hle : lo ≤ hi) (hhi : hi ≤ r.hi) :
    HostRange.Wf { r with lo := lo, hi := hi } ∧
      HostRange.Ordered { r with lo := lo, hi := hi } := by
  have hbound := hr.hi_lt
  refine ⟨(HostRange.Ok.of_bounds (r := { r with lo := lo, hi := hi }) (hr.not_single h0)
    (show lo < _ by omega) (show hi < _ by omega)).toWf, fun _ => hle⟩

section

variable {as bs : List HostRange} {r : HostRange} {d : Nat}

/-- The condition on a removal of the host `d` of the range `r` behind `as`. -/
def Smooth (as : List HostRange) (r : HostRange) (d : Nat) : Prop :=
  d = 0 → if r.lo + d = r.hi then lastLength as ≤ 1 else r.hi ≠ ulongMax

/-- What a removal does: the range loses its lowest host, it is deleted and the
iterator moves to the list's start or into the range before, it loses its
highest host, or it is split. -/
theorem Cursor.remove_cases (h : (⟨as, r :: bs, d + 1⟩ : Cursor).Ok) :
    (d = 0 ∧ r.lo < r.hi ∧ r.hi ≠ ulongMax ∧
      (⟨as, r :: bs, d + 1⟩ : Cursor).remove = ⟨as, { r with lo := r.lo + 1 } :: bs, 0⟩) ∨
    (d = 0 ∧ (r.lo < r.hi → r.hi = ulongMax) ∧ as = [] ∧
      (⟨as, r :: bs, d + 1⟩ : Cursor).remove = ⟨[], bs, 0⟩) ∨
    (d = 0 ∧ (r.lo < r.hi → r.hi = ulongMax) ∧ ∃ as' q, as = as' ++ [q] ∧
      (⟨as, r :: bs, d + 1⟩ : Cursor).remove = ⟨as', q :: bs, 1⟩) ∨
    (0 < d ∧ r.lo + d = r.hi ∧
      (⟨as, r :: bs, d + 1⟩ : Cursor).remove = ⟨as, { r with hi := r.hi - 1 } :: bs, d⟩) ∨
    (0 < d ∧ r.lo + d < r.hi ∧ (⟨as, r :: bs, d + 1⟩ : Cursor).remove =
      ⟨as ++ [{ r with hi := r.lo + d - 1 }], { r with lo := r.lo + d + 1 } :: bs, 0⟩) := by
  obtain ⟨hr, ho⟩ := h.ranges r (by simp [Cursor.ranges])
  have hle := hr.lo_le ho
  have hlen := hr.length_names
  have hd : d + 1 ≤ r.names.length := h.passed r rfl
  by_cases h0 : d = 0
  · subst h0
    by_cases hkeep : r.lo < r.hi ∧ r.hi ≠ ulongMax
    · left
      refine ⟨rfl, hkeep.1, hkeep.2, ?_⟩
      simp [Cursor.remove, hkeep]
    · have htop : r.lo < r.hi → r.hi = ulongMax := fun hlt => by
        by_contra hne
        exact hkeep ⟨hlt, hne⟩
      have hdel : (⟨as, r :: bs, 0 + 1⟩ : Cursor).remove = (⟨as, r :: bs, 1⟩ : Cursor).delete := by
        simp only [Cursor.remove]
        rw [if_pos (Nat.le_refl _), if_neg hkeep]
      rw [hdel, Cursor.delete]
      rcases as.eq_nil_or_concat' with rfl | ⟨as', q, rfl⟩
      · exact .inr (.inl ⟨rfl, htop, rfl, rfl⟩)
      · exact .inr (.inr (.inl ⟨rfl, htop, as', q, rfl, by simp⟩))
  · right; right; right
    have hmore : ¬ d + 1 ≤ 1 := by omega
    by_cases hlast : r.lo + d = r.hi
    · left
      refine ⟨by omega, hlast, ?_⟩
      have hall : d + 1 = r.names.length := by omega
      simp only [Cursor.remove]
      rw [if_neg hmore, if_pos hall]
      rfl
    · right
      refine ⟨by omega, by omega, ?_⟩
      have hpart : ¬ d + 1 = r.names.length := by omega
      have hmid : r.lo + (d + 1) - 2 = r.lo + d - 1 := by omega
      simp only [Cursor.remove]
      rw [if_neg hmore, if_neg hpart, hmid]
      rfl

/-- A removal leaves well-formed ranges and an iterator inside. -/
theorem Cursor.Ok.remove (h : (⟨as, r :: bs, d + 1⟩ : Cursor).Ok) :
    (⟨as, r :: bs, d + 1⟩ : Cursor).remove.Ok := by
  have hok := h.ranges
  simp only [Cursor.ranges, List.forall_mem_append, List.forall_mem_cons] at hok
  obtain ⟨has, ⟨hr, ho⟩, hbs⟩ := hok
  have hle := hr.lo_le ho
  rcases Cursor.remove_cases h with ⟨-, hlt, -, heq⟩ | ⟨-, -, rfl, heq⟩ |
    ⟨-, -, as', q, rfl, heq⟩ | ⟨hpos, hlast, heq⟩ | ⟨hpos, hlt, heq⟩
  · rw [heq]
    refine ⟨?_, fun s _ => Nat.zero_le _, fun hnil => by cases hnil⟩
    simp only [Cursor.ranges, List.forall_mem_append, List.forall_mem_cons]
    exact ⟨has, hr.part (by omega) hlt (Nat.le_refl _), hbs⟩
  · rw [heq]
    exact ⟨hbs, fun s _ => Nat.zero_le _, fun _ => rfl⟩
  · rw [heq]
    have hq := (has q (by simp)).2
    refine ⟨?_, fun s hs => ?_, fun hnil => by cases hnil⟩
    · simp only [Cursor.ranges, List.forall_mem_append, List.forall_mem_cons] at has ⊢
      exact ⟨has.1, has.2.1, hbs⟩
    · obtain rfl := Option.some.inj hs
      exact names_length_pos hq
  · rw [heq]
    have hpart : HostRange.Wf { r with hi := r.hi - 1 } ∧
        HostRange.Ordered { r with hi := r.hi - 1 } :=
      hr.part (by omega) (by omega) (by omega)
    refine ⟨?_, fun s hs => ?_, fun hnil => by cases hnil⟩
    · simp only [Cursor.ranges, List.forall_mem_append, List.forall_mem_cons]
      exact ⟨has, hpart, hbs⟩
    · obtain rfl := Option.some.inj hs
      rw [hpart.1.length_names]
      show d ≤ r.hi - 1 + 1 - r.lo
      omega
  · rw [heq]
    have hlow : HostRange.Wf { r with hi := r.lo + d - 1 } ∧
        HostRange.Ordered { r with hi := r.lo + d - 1 } :=
      hr.part (by omega) (by omega) (by omega)
    have hhigh : HostRange.Wf { r with lo := r.lo + d + 1 } ∧
        HostRange.Ordered { r with lo := r.lo + d + 1 } :=
      hr.part (by omega) (by omega) (Nat.le_refl _)
    refine ⟨?_, fun s _ => Nat.zero_le _, fun hnil => by cases hnil⟩
    simp only [Cursor.ranges, List.forall_mem_append, List.forall_mem_cons]
    exact ⟨⟨has, hlow, fun s hs => by cases hs⟩, hhigh, hbs⟩

/-- The printed places of one range. -/
theorem map_placeName_part (r : HostRange) (ks : List Nat) (lo hi : Nat) :
    (ks.map fun k => (({ r with lo := lo, hi := hi } : HostRange), k)).map placeName =
      (ks.map fun k => (r, k)).map placeName := by
  rw [List.map_map, List.map_map]
  rfl

theorem map_view_part (r : HostRange) (ks : List Nat) (lo : Nat) :
    (ks.map fun k => (({ r with lo := lo } : HostRange), k)).map view =
      (ks.map fun k => (r, k)).map view := by
  rw [List.map_map, List.map_map]
  rfl

theorem Cursor.ahead_start (as bs : List HostRange) : (⟨as, bs, 0⟩ : Cursor).ahead = places bs := by
  rcases bs with _ | ⟨s, bs⟩
  · rfl
  · rw [places_cons]
    rfl

theorem Cursor.behind_start (as bs : List HostRange) :
    (⟨as, bs, 0⟩ : Cursor).behind = places as := by
  rcases bs with _ | ⟨s, bs⟩ <;> exact List.append_nil _

theorem Cursor.left_start {as bs : List HostRange} (h : ∀ s ∈ bs, s.Ordered) :
    (⟨as, bs, 0⟩ : Cursor).left = (lastLength as, 0) := by
  rcases bs with _ | ⟨s, bs⟩
  · rfl
  · exact if_pos (names_length_pos (h s (by simp)))

/-- A smooth removal takes the host off those behind the iterator and leaves
those ahead of it. -/
theorem Cursor.remove_smooth (h : (⟨as, r :: bs, d + 1⟩ : Cursor).Ok) (hs : Smooth as r d) :
    (⟨as, r :: bs, d + 1⟩ : Cursor).remove.ahead.map view =
        (⟨as, r :: bs, d + 1⟩ : Cursor).ahead.map view ∧
      (⟨as, r :: bs, d + 1⟩ : Cursor).remove.behind.map placeName =
        (⟨as, r :: bs, d⟩ : Cursor).behind.map placeName ∧
      (⟨as, r :: bs, d + 1⟩ : Cursor).remove.left = (if d = 0 then lastLength as else d, 0) ∧
      (⟨as, r :: bs, d + 1⟩ : Cursor).remove.passed ≤ max 1 d := by
  have hok := h.ranges
  have hokr := h.remove.ranges
  simp only [Cursor.ranges, List.forall_mem_append, List.forall_mem_cons] at hok
  obtain ⟨has, ⟨hr, ho⟩, hbs⟩ := hok
  have hle := hr.lo_le ho
  -- a deleted range had one host
  have hdeleted : d = 0 → (r.lo < r.hi → r.hi = ulongMax) →
      r.numbers = [r.lo] ∧ lastLength as ≤ 1 := by
    rintro rfl htop
    have heq : r.lo = r.hi := by
      by_contra hne
      have hno := hs rfl
      rw [if_neg (by omega)] at hno
      exact hno (htop (by omega))
    have hone := hs rfl
    rw [if_pos (by omega)] at hone
    refine ⟨?_, hone⟩
    rw [HostRange.numbers, ← heq]
    simp
  have hahead : (⟨as, r :: bs, d + 1⟩ : Cursor).ahead =
      (r.numbers.drop (d + 1)).map (fun k => (r, k)) ++ places bs := rfl
  have hbehind : (⟨as, r :: bs, d⟩ : Cursor).behind =
      places as ++ (r.numbers.take d).map fun k => (r, k) := rfl
  rw [hahead, hbehind]
  rcases Cursor.remove_cases h with ⟨rfl, hlt, -, heq⟩ | ⟨rfl, htop, rfl, heq⟩ |
    ⟨rfl, htop, as', q, rfl, heq⟩ | ⟨hpos, hlast, heq⟩ | ⟨hpos, hlt, heq⟩
  · rw [heq] at hokr ⊢
    have hnums : HostRange.numbers { r with lo := r.lo + 1 } = r.numbers.drop 1 := by
      simp only [HostRange.numbers, List.drop_range']
      rfl
    have hbs' : ∀ s ∈ { r with lo := r.lo + 1 } :: bs, s.Ordered := fun s hs =>
      (hokr s (List.mem_append_right _ hs)).2
    rw [Cursor.ahead_start, Cursor.behind_start, Cursor.left_start hbs', places_cons, hnums]
    refine ⟨?_, by simp, rfl, Nat.zero_le _⟩
    rw [List.map_append, List.map_append, map_view_part]
  · obtain ⟨hnums, -⟩ := hdeleted rfl htop
    rw [heq] at hokr ⊢
    have hleft := @Cursor.left_start [] bs fun s hs => (hokr s hs).2
    rw [Cursor.ahead_start, Cursor.behind_start, hleft, hnums]
    exact ⟨rfl, rfl, rfl, Nat.zero_le _⟩
  · obtain ⟨hnums, hone⟩ := hdeleted rfl htop
    obtain ⟨hq, hqo⟩ := has q (by simp)
    rw [lastLength_concat] at hone
    have hlen : q.names.length = 1 := Nat.le_antisymm hone (names_length_pos hqo)
    have hqnums : q.numbers.length = 1 := (length_numbers hq).trans hlen
    rw [heq, hnums, lastLength_concat, hlen]
    refine ⟨?_, ?_, ?_, Nat.le_refl _⟩
    · have hdrop : q.numbers.drop 1 = [] := List.drop_eq_nil_of_le (by omega)
      simp [Cursor.ahead, hdrop]
    · have htake : q.numbers.take 1 = q.numbers := List.take_of_length_le (by omega)
      simp [Cursor.behind, htake, places]
    · have hno : ¬ 1 < q.names.length := by omega
      exact if_neg hno
  · have hnums : HostRange.numbers { r with hi := r.hi - 1 } = List.range' r.lo d := by
      show List.range' r.lo (r.hi - 1 + 1 - r.lo) = _
      congr 1
      omega
    have hall : r.numbers = List.range' r.lo (d + 1) := by
      rw [HostRange.numbers]
      congr 1
      omega
    have hlen : (HostRange.names { r with hi := r.hi - 1 }).length = d := by
      have hwf := (hokr { r with hi := r.hi - 1 } (by rw [heq]; simp [Cursor.ranges])).1
      rw [← length_numbers hwf, hnums, List.length_range']
    rw [heq, hall, if_neg (by omega)]
    refine ⟨?_, ?_, ?_, Nat.le_max_right _ _⟩
    · simp [Cursor.ahead, hnums]
    · have htake : (List.range' r.lo (d + 1)).take d = List.range' r.lo d :=
        List.take_range'_of_length_ge (Nat.le_succ d)
      simp only [Cursor.behind, hnums, htake, List.map_append, map_placeName_part]
      rw [List.take_of_length_le (by simp)]
    · simp only [Cursor.left, hlen]
      exact if_neg (Nat.lt_irrefl d)
  · have hlow : HostRange.numbers { r with hi := r.lo + d - 1 } = r.numbers.take d := by
      have htake : r.numbers.take d = List.range' r.lo d :=
        List.take_range'_of_length_ge (by omega)
      rw [htake]
      show List.range' r.lo (r.lo + d - 1 + 1 - r.lo) = _
      congr 1
      omega
    have hhigh : HostRange.numbers { r with lo := r.lo + d + 1 } = r.numbers.drop (d + 1) := by
      rw [HostRange.numbers, HostRange.numbers, List.drop_range']
      show List.range' (r.lo + d + 1) (r.hi + 1 - (r.lo + d + 1)) = _
      congr 1 <;> omega
    have hlen : (HostRange.names { r with hi := r.lo + d - 1 }).length = d := by
      have hwf := (hokr { r with hi := r.lo + d - 1 } (by rw [heq]; simp [Cursor.ranges])).1
      rw [← length_numbers hwf, hlow, List.length_take, length_numbers hr, hr.length_names]
      omega
    rw [heq] at hokr ⊢
    have hbs' : ∀ s ∈ { r with lo := r.lo + d + 1 } :: bs, s.Ordered := fun s hs =>
      (hokr s (List.mem_append_right _ hs)).2
    rw [Cursor.ahead_start, Cursor.behind_start, Cursor.left_start hbs', lastLength_concat,
      places_append, places_cons, places_cons, hlow, hhigh, hlen, if_neg (by omega)]
    refine ⟨?_, ?_, rfl, Nat.zero_le _⟩
    · rw [List.map_append, List.map_append, map_view_part]
    · simp only [List.map_append, map_placeName_part]
      simp [places]

/-- The number of hosts a cursor has behind and ahead of it. -/
theorem Cursor.Ok.length {c : Cursor} (h : c.Ok) :
    (names c.ranges).length = c.behind.length + c.ahead.length := by
  rw [← length_places fun r hr => (h.ranges r hr).1, ← c.behind_append_ahead, List.length_append]

/-- A removal takes at least one host off a list. If it takes one only, no place
ahead is lost, and none comes back if the removal was smooth. -/
theorem Cursor.remove_counts (h : (⟨as, r :: bs, d + 1⟩ : Cursor).Ok) :
    (names (⟨as, r :: bs, d + 1⟩ : Cursor).remove.ranges).length + 1 ≤
        (names (as ++ r :: bs)).length ∧
      ((names (⟨as, r :: bs, d + 1⟩ : Cursor).remove.ranges).length + 1 =
          (names (as ++ r :: bs)).length →
        (⟨as, r :: bs, d + 1⟩ : Cursor).ahead.length ≤
            (⟨as, r :: bs, d + 1⟩ : Cursor).remove.ahead.length ∧
          ((⟨as, r :: bs, d + 1⟩ : Cursor).ahead.length =
              (⟨as, r :: bs, d + 1⟩ : Cursor).remove.ahead.length → Smooth as r d)) := by
  have hsize : (names (as ++ r :: bs)).length =
      (⟨as, r :: bs, d + 1⟩ : Cursor).behind.length +
        (⟨as, r :: bs, d + 1⟩ : Cursor).ahead.length := h.length
  have hok := h.ranges
  simp only [Cursor.ranges, List.forall_mem_append, List.forall_mem_cons] at hok
  obtain ⟨has, ⟨hr, ho⟩, -⟩ := hok
  have hd : d + 1 ≤ r.names.length := h.passed r rfl
  by_cases hs : Smooth as r d
  · obtain ⟨hahead, hbehind, -, -⟩ := Cursor.remove_smooth h hs
    have hlen := h.remove.length
    have h1 := congrArg List.length hahead
    have h2 := congrArg List.length hbehind
    simp only [List.length_map] at h1 h2
    have hstep : (⟨as, r :: bs, d + 1⟩ : Cursor).behind.length =
        (⟨as, r :: bs, d⟩ : Cursor).behind.length + 1 := by
      simp only [Cursor.behind]
      rw [take_numbers hr hd]
      simp
      omega
    exact ⟨by omega, fun _ => ⟨by omega, fun _ => hs⟩⟩
  · -- the range was deleted, with other hosts or next to a longer range
    have hd0 : d = 0 := by
      by_contra hne
      exact hs fun h0 => absurd h0 hne
    subst hd0
    have hcut : (names (as ++ r :: bs)).length = (names (as ++ bs)).length + r.names.length := by
      simp only [names_append, names_cons, List.length_append]
      omega
    have hone : r.names.length = 1 → 2 ≤ lastLength as := by
      intro h1
      by_contra hshort
      refine hs fun _ => ?_
      rw [hr.length_names] at h1
      rw [if_pos (by omega)]
      omega
    have hahead : (⟨as, r :: bs, 0 + 1⟩ : Cursor).ahead.length =
        r.names.length - 1 + (places bs).length := by
      simp only [Cursor.ahead, List.length_append, List.length_map, List.length_drop,
        length_numbers hr, Nat.zero_add]
    rcases Cursor.remove_cases h with ⟨-, hlt, htop, -⟩ | ⟨-, -, rfl, heq⟩ |
      ⟨-, -, as', q, rfl, heq⟩ | ⟨hpos, -⟩ | ⟨hpos, -⟩
    · refine absurd (fun _ => ?_) hs
      rw [if_neg (by omega)]
      exact htop
    · have hnot : r.names.length ≠ 1 := fun h1 => by
        have hlast := hone h1
        simp [lastLength] at hlast
      have hrem : (names (⟨[], r :: bs, 0 + 1⟩ : Cursor).remove.ranges).length =
          (names bs).length := by
        rw [heq]
        rfl
      simp only [List.nil_append] at hcut hrem ⊢
      omega
    · have hq := (has q (by simp)).1
      have hrem : (names (⟨as' ++ [q], r :: bs, 0 + 1⟩ : Cursor).remove.ranges).length =
          (names (as' ++ [q] ++ bs)).length := by
        rw [heq, Cursor.ranges, List.append_assoc]
        rfl
      have hmore : (⟨as' ++ [q], r :: bs, 0 + 1⟩ : Cursor).remove.ahead.length =
          q.names.length - 1 + (places bs).length := by
        rw [heq]
        simp only [Cursor.ahead, List.length_append, List.length_map, List.length_drop,
          length_numbers hq]
      rw [lastLength_concat] at hone
      refine ⟨by omega, fun hsame => ?_⟩
      have h2 := hone (by omega)
      omega
    · omega
    · omega

end

/-! ## Traversals of a cursor -/

/-- The traversal of a cursor: the places it comes to and the cursor it leaves. -/
def Cursor.run (sel : Nat → Bool) : Nat → Nat → Cursor →
    Option (List (HostRange × Nat) × Cursor)
  | 0, _, _ => none
  | fuel + 1, n, c =>
    if c.passed < 2147483648 then
      match c.next with
      | none => some ([], c)
      | some (p, c) =>
        (Cursor.run sel fuel (n + 1) (if sel n then c.remove else c)).map fun q =>
          (p :: q.1, q.2)
    else none

section

variable {sel : Nat → Bool}

/-- A step of a traversal. -/
theorem Cursor.run_step {c : Cursor} (h : c.Ok) (hfits : c.passed < 2147483648) (fuel n : Nat) :
    (c.ahead = [] ∧ c.run sel (fuel + 1) n = some ([], c)) ∨
      ∃ as r bs d, (⟨as, r :: bs, d + 1⟩ : Cursor).Ok ∧ d ≤ c.passed ∧
        c.left = (lastLength as, d) ∧ c.ranges = as ++ r :: bs ∧
        c.ahead = (r, r.lo + d) :: (⟨as, r :: bs, d + 1⟩ : Cursor).ahead ∧
        (⟨as, r :: bs, d + 1⟩ : Cursor).behind = c.behind ++ [(r, r.lo + d)] ∧
        c.run sel (fuel + 1) n =
          (Cursor.run sel fuel (n + 1) (if sel n then (⟨as, r :: bs, d + 1⟩ : Cursor).remove
            else ⟨as, r :: bs, d + 1⟩)).map fun q => ((r, r.lo + d) :: q.1, q.2) := by
  rcases Cursor.next_cases h with ⟨hnext, hahead⟩ |
    ⟨as, r, bs, d, hnext, hok, hd, hleft, hranges, hahead, hbehind⟩
  · left
    refine ⟨hahead, ?_⟩
    rw [Cursor.run, if_pos hfits, hnext]
  · right
    refine ⟨as, r, bs, d, hok, hd, hleft, hranges, hahead, hbehind, ?_⟩
    rw [Cursor.run, if_pos hfits, hnext]

/-- A step of a traversal of the source, from a cursor to a cursor. -/
theorem traverse_step {c : Cursor} (h : c.Ok) (hfits : c.passed < 2147483648) (fuel n free : Nat)
    (m : Int) :
    (c.next = none ∧ traverse sel (fuel + 1) n (Hostlist.ofRanges c.ranges free m) c.iterator =
        some ([], Hostlist.ofRanges c.ranges free m)) ∨
      ∃ p c1 c2 free' m', c.next = some (p, c1) ∧ c2 = (if sel n then c1.remove else c1) ∧ c2.Ok ∧
        traverse sel (fuel + 1) n (Hostlist.ofRanges c.ranges free m) c.iterator =
          (nextName p).bind fun name =>
            (traverse sel fuel (n + 1) (Hostlist.ofRanges c2.ranges free' m') c2.iterator).map
              fun q => (name :: q.1, q.2) := by
  rw [traverse]
  rcases Cursor.next_cases h with ⟨hnext, -⟩ | ⟨as, r, bs, d, hnext, hok, -, -, -, -, -⟩
  · left
    rcases @hostlistNext_cursor free m c h hfits with ⟨-, i, hcall⟩ | ⟨p, c1, hsome, -⟩
    · rw [hcall]
      exact ⟨hnext, rfl⟩
    · rw [hnext] at hsome
      cases hsome
  · right
    rcases @hostlistNext_cursor free m c h hfits with ⟨hnone, -⟩ | ⟨p, c1, hsome, hranges, hcall⟩
    · rw [hnext] at hnone
      cases hnone
    · obtain ⟨rfl, rfl⟩ := Prod.mk.inj (Option.some.inj (hnext.symm.trans hsome))
      rw [hcall, ← hranges]
      cases hsel : sel n with
      | true =>
        obtain ⟨free', m', hremove⟩ := @hostlistRemove_cursor free m _ hok (Nat.succ_pos d)
        refine ⟨_, _, _, free', m', hnext, rfl, hok.remove, ?_⟩
        cases nextName (r, r.lo + d) with
        | none => rfl
        | some name =>
          simp only [if_true, Option.map_some, Option.bind_some]
          rw [hremove]
          rfl
      | false =>
        refine ⟨_, _, _, free, m, hnext, rfl, hok, ?_⟩
        cases nextName (r, r.lo + d) with
        | none => rfl
        | some name => rfl

/-- A traversal of the source is one of its cursor. -/
theorem run_of_traverse : ∀ (fuel n : Nat) (c : Cursor) (free : Nat) (m : Int), c.Ok →
    ∀ {ns : List (List Char)} {hl' : Hostlist},
    traverse sel fuel n (Hostlist.ofRanges c.ranges free m) c.iterator = some (ns, hl') →
    ∃ ps c' free' m', c.run sel fuel n = some (ps, c') ∧ ps.mapM nextName = some ns ∧
      hl' = Hostlist.ofRanges c'.ranges free' m' := by
  intro fuel
  induction fuel with
  | zero => intro n c free m _ ns hl' h; cases h
  | succ fuel ih =>
    intro n c free m hok ns hl' h
    by_cases hfits : c.passed < 2147483648
    · rw [Cursor.run, if_pos hfits]
      rcases @traverse_step sel c hok hfits fuel n free m with ⟨hnext, hstep⟩ |
        ⟨p, c1, c2, free1, m1, hnext, hc2, hok2, hstep⟩
      · rw [hstep] at h
        obtain ⟨rfl, rfl⟩ := Prod.mk.inj (Option.some.inj h)
        rw [hnext]
        exact ⟨[], c, free, m, rfl, rfl, rfl⟩
      · rw [hstep] at h
        obtain ⟨name, hname, h⟩ := Option.bind_eq_some_iff.mp h
        obtain ⟨⟨ms, hl1⟩, hms, h⟩ := Option.map_eq_some_iff.mp h
        obtain ⟨rfl, rfl⟩ := Prod.mk.inj h
        obtain ⟨ps, c', free', m', hrun, hps, hl'⟩ := ih (n + 1) c2 free1 m1 hok2 hms
        rw [hnext]
        refine ⟨p :: ps, c', free', m', ?_, ?_, hl'⟩
        · simp only
          rw [← hc2, hrun]
          rfl
        · rw [List.mapM_cons, hname, hps]
          rfl
    · rw [traverse, hostlistNext_deep hok hfits] at h
      cases h

/-- A traversal of a cursor whose places can be printed is one of the source. -/
theorem traverse_of_run : ∀ (fuel n : Nat) (c : Cursor) (free : Nat) (m : Int), c.Ok →
    ∀ {ps : List (HostRange × Nat)} {c' : Cursor} {ns : List (List Char)},
    c.run sel fuel n = some (ps, c') → ps.mapM nextName = some ns →
    ∃ free' m', traverse sel fuel n (Hostlist.ofRanges c.ranges free m) c.iterator =
      some (ns, Hostlist.ofRanges c'.ranges free' m') := by
  intro fuel
  induction fuel with
  | zero => intro n c free m _ ps c' ns h; cases h
  | succ fuel ih =>
    intro n c free m hok ps c' ns h hns
    rw [Cursor.run] at h
    split at h
    next hfits =>
      rcases @traverse_step sel c hok hfits fuel n free m with ⟨hnext, hstep⟩ |
        ⟨p, c1, c2, free1, m1, hnext, hc2, hok2, hstep⟩
      · rw [hnext] at h
        obtain ⟨rfl, rfl⟩ := Prod.mk.inj (Option.some.inj h)
        obtain rfl := Option.some.inj hns
        exact ⟨free, m, hstep⟩
      · rw [hnext] at h
        simp only at h
        rw [← hc2] at h
        obtain ⟨⟨qs, c3⟩, hrun, h⟩ := Option.map_eq_some_iff.mp h
        obtain ⟨rfl, rfl⟩ := Prod.mk.inj h
        rw [List.mapM_cons, Option.bind_eq_bind] at hns
        obtain ⟨name, hname, hns⟩ := Option.bind_eq_some_iff.mp hns
        obtain ⟨ms, hms, hns⟩ := Option.bind_eq_some_iff.mp hns
        obtain rfl := Option.some.inj hns
        obtain ⟨free', m', hrest⟩ := ih (n + 1) c2 free1 m1 hok2 hrun hms
        refine ⟨free', m', ?_⟩
        rw [hstep, hname, Option.bind_some, hrest]
        rfl
    next => cases h

/-! ## Spared choices -/

theorem length_unchosen {α β : Type} : ∀ {l : List α} {l' : List β} {n : Nat},
    l.length = l'.length → (unchosen sel n l).length = (unchosen sel n l').length := by
  intro l
  induction l with
  | nil =>
    intro l' n h
    rw [List.length_eq_zero_iff.mp h.symm]
    rfl
  | cons a l ih =>
    intro l' n h
    rcases l' with _ | ⟨b, l'⟩
    · cases h
    · have hrest := @ih l' (n + 1) (Nat.succ.inj h)
      unfold unchosen
      split
      · exact hrest
      · rw [List.length_cons, List.length_cons, hrest]

/-- From wherever it starts, a traversal takes at least as many hosts off as it
was told to, and comes to every place ahead if it takes no more. -/
theorem Cursor.run_counts : ∀ (fuel n : Nat) (c : Cursor), c.Ok →
    ∀ {ps : List (HostRange × Nat)} {c' : Cursor}, c.run sel fuel n = some (ps, c') →
    (names c'.ranges).length + ps.length ≤
        (names c.ranges).length + (unchosen sel n ps).length ∧
      ((names c'.ranges).length + ps.length =
          (names c.ranges).length + (unchosen sel n ps).length →
        c.ahead.length ≤ ps.length) := by
  intro fuel
  induction fuel with
  | zero => intro n c _ ps c' h; cases h
  | succ fuel ih =>
    intro n c hok ps c' h
    have hfits : c.passed < 2147483648 := by
      by_contra hdeep
      rw [Cursor.run, if_neg hdeep] at h
      cases h
    rcases @Cursor.run_step sel c hok hfits fuel n with ⟨hahead, hrun⟩ |
      ⟨as, r, bs, d, hok1, -, -, hranges, hahead, -, hrun⟩
    · rw [hrun] at h
      obtain ⟨rfl, rfl⟩ := Prod.mk.inj (Option.some.inj h)
      rw [hahead]
      exact ⟨Nat.le_refl _, fun _ => Nat.le_refl _⟩
    · rw [hrun] at h
      obtain ⟨⟨qs, c2⟩, hrest, h⟩ := Option.map_eq_some_iff.mp h
      simp only at h
      obtain ⟨rfl, rfl⟩ := Prod.mk.inj h
      rw [hahead, hranges, List.length_cons, List.length_cons, unchosen]
      cases hsel : sel n with
      | true =>
        rw [hsel, if_pos rfl] at hrest
        obtain ⟨hle, hmore⟩ := Cursor.remove_counts hok1
        obtain ⟨hle2, hmore2⟩ := ih (n + 1) _ hok1.remove hrest
        rw [if_pos rfl]
        refine ⟨by omega, fun heq => ?_⟩
        have h1 := (hmore (by omega)).1
        have h2 := hmore2 (by omega)
        omega
      | false =>
        rw [hsel, if_neg Bool.false_ne_true] at hrest
        obtain ⟨hle2, hmore2⟩ := ih (n + 1) _ hok1 hrest
        have hsize : (names (⟨as, r :: bs, d + 1⟩ : Cursor).ranges).length =
            (names (as ++ r :: bs)).length := rfl
        rw [if_neg Bool.false_ne_true, List.length_cons]
        refine ⟨by omega, fun heq => ?_⟩
        have h2 := hmore2 (by omega)
        omega

/-- The choice is spared from the hosts ahead of a cursor on. -/
def Cursor.Spared (sel : Nat → Bool) (n : Nat) (c : Cursor) : Prop :=
  Hosts.Spared sel n c.left.1 c.left.2 c.ahead

/-- What a spared choice says of the next host. -/
theorem Cursor.spared_step {c : Cursor} {as bs : List HostRange} {r : HostRange} {d n : Nat}
    (h : (⟨as, r :: bs, d + 1⟩ : Cursor).Ok) (hleft : c.left = (lastLength as, d))
    (hahead : c.ahead = (r, r.lo + d) :: (⟨as, r :: bs, d + 1⟩ : Cursor).ahead) :
    c.Spared sel n ↔ if sel n then
        Smooth as r d ∧ (⟨as, r :: bs, d + 1⟩ : Cursor).remove.Spared sel (n + 1)
      else d + 1 < 2147483648 ∧ (⟨as, r :: bs, d + 1⟩ : Cursor).Spared sel (n + 1) := by
  unfold Cursor.Spared
  rw [hleft, hahead, Hosts.Spared]
  cases hsel : sel n with
  | true =>
    simp only [if_true]
    refine and_congr_right fun hs => ?_
    obtain ⟨hsame, -, hl, -⟩ := Cursor.remove_smooth h hs
    rw [hl, ← spared_view, ← hsame, spared_view]
  | false =>
    simp only [Bool.false_eq_true, if_false]
    refine and_congr_right fun _ => ?_
    obtain ⟨hr, ho⟩ := h.ranges r (by simp [Cursor.ranges])
    have hd : d + 1 ≤ r.names.length := h.passed r rfl
    have hle := hr.lo_le ho
    have hlen := hr.length_names
    unfold Cursor.left
    simp only
    by_cases hlast : r.lo + d = r.hi
    · rw [if_pos hlast, if_neg (by omega)]
    · rw [if_neg hlast, if_pos (by omega)]

/-- A traversal of a spared choice comes to the places ahead one by one, and
leaves those that are not chosen. -/
theorem Cursor.run_of_spared : ∀ (fuel n : Nat) (c : Cursor), c.Ok → c.passed < 2147483648 →
    c.Spared sel n → c.ahead.length < fuel →
    ∃ ps c', c.run sel fuel n = some (ps, c') ∧ ps.map view = c.ahead.map view ∧ c'.Ok ∧
      names c'.ranges = c.behind.map placeName ++ unchosen sel n (c.ahead.map placeName) := by
  intro fuel
  induction fuel with
  | zero => intro n c _ _ _ h; omega
  | succ fuel ih =>
    intro n c hok hfits hs hlen
    rcases @Cursor.run_step sel c hok hfits fuel n with ⟨hahead, hrun⟩ |
      ⟨as, r, bs, d, hok1, hd, hleft, hranges, hahead, hbehind, hrun⟩
    · refine ⟨[], c, hrun, by rw [hahead], hok, ?_⟩
      rw [names_eq_places fun r hr => (hok.ranges r hr).1, ← c.behind_append_ahead, hahead,
        List.append_nil]
      exact (List.append_nil _).symm
    · have hstep := (Cursor.spared_step hok1 hleft hahead).mp hs
      rw [hahead, List.length_cons] at hlen
      rw [hrun, hahead, List.map_cons, List.map_cons, unchosen]
      cases hsel : sel n with
      | true =>
        rw [hsel, if_pos rfl] at hstep
        obtain ⟨hsmooth, hspared⟩ := hstep
        obtain ⟨hsame, hpast, -, hpassed⟩ := Cursor.remove_smooth hok1 hsmooth
        have hcount := congrArg List.length hsame
        simp only [List.length_map] at hcount
        obtain ⟨ps, c', hrest, hps, hok', hnames⟩ :=
          ih (n + 1) _ hok1.remove (by omega) hspared (by omega)
        simp only [if_true]
        rw [hrest]
        refine ⟨_, c', rfl, ?_, hok', ?_⟩
        · rw [List.map_cons, hps, hsame]
        · have hprints : (⟨as, r :: bs, d + 1⟩ : Cursor).remove.ahead.map placeName =
              (⟨as, r :: bs, d + 1⟩ : Cursor).ahead.map placeName := by
            have hviews := congrArg (List.map placeName) hsame
            rw [List.map_map, List.map_map] at hviews
            exact hviews
          have hbefore : (⟨as, r :: bs, d⟩ : Cursor).behind = c.behind := by
            obtain ⟨hr, -⟩ := hok1.ranges r (by simp [Cursor.ranges])
            have hlt : d + 1 ≤ r.names.length := hok1.passed r rfl
            have htake : (⟨as, r :: bs, d + 1⟩ : Cursor).behind =
                (⟨as, r :: bs, d⟩ : Cursor).behind ++ [(r, r.lo + d)] := by
              simp only [Cursor.behind]
              rw [take_numbers hr hlt, List.map_append, ← List.append_assoc]
              rfl
            exact List.append_cancel_right (htake.symm.trans hbehind)
          rw [hnames, hpast, hprints, hbefore]
      | false =>
        rw [hsel, if_neg Bool.false_ne_true] at hstep
        obtain ⟨ps, c', hrest, hps, hok', hnames⟩ :=
          ih (n + 1) _ hok1 hstep.1 hstep.2 (by omega)
        simp only [Bool.false_eq_true, if_false]
        rw [hrest]
        refine ⟨_, c', rfl, ?_, hok', ?_⟩
        · rw [List.map_cons, hps]
        · rw [hnames, hbehind]
          simp

/-- A traversal that comes to as many places as are ahead, and takes as many
hosts off as are chosen, is one of a spared choice. -/
theorem Cursor.spared_of_run : ∀ (fuel n : Nat) (c : Cursor), c.Ok →
    ∀ {ps : List (HostRange × Nat)} {c' : Cursor}, c.run sel fuel n = some (ps, c') →
    ps.length = c.ahead.length →
    (names c'.ranges).length + ps.length =
      (names c.ranges).length + (unchosen sel n ps).length →
    c.Spared sel n ∧ ps.map view = c.ahead.map view := by
  intro fuel
  induction fuel with
  | zero => intro n c _ ps c' h; cases h
  | succ fuel ih =>
    intro n c hok ps c' h hlen hcount
    have hfits : c.passed < 2147483648 := by
      by_contra hdeep
      rw [Cursor.run, if_neg hdeep] at h
      cases h
    rcases @Cursor.run_step sel c hok hfits fuel n with ⟨hahead, hrun⟩ |
      ⟨as, r, bs, d, hok1, -, hleft, hranges, hahead, -, hrun⟩
    · rw [hrun] at h
      obtain ⟨rfl, rfl⟩ := Prod.mk.inj (Option.some.inj h)
      rw [Cursor.Spared, hahead]
      exact ⟨trivial, rfl⟩
    · rw [hrun] at h
      obtain ⟨⟨qs, c2⟩, hrest, h⟩ := Option.map_eq_some_iff.mp h
      simp only at h
      obtain ⟨rfl, rfl⟩ := Prod.mk.inj h
      rw [hahead, List.length_cons, List.length_cons] at hlen
      rw [hranges, List.length_cons, unchosen] at hcount
      rw [Cursor.spared_step hok1 hleft hahead, hahead]
      cases hsel : sel n with
      | true =>
        rw [hsel, if_pos rfl] at hrest hcount
        obtain ⟨hle, hmore⟩ := Cursor.remove_counts hok1
        obtain ⟨hle2, hmore2⟩ := Cursor.run_counts fuel (n + 1) _ hok1.remove hrest
        obtain ⟨hge, hsame⟩ := hmore (by omega)
        have hge2 := hmore2 (by omega)
        have hsmooth := hsame (by omega)
        obtain ⟨hspared, hviews⟩ := ih (n + 1) _ hok1.remove hrest (by omega) (by omega)
        rw [if_pos rfl, List.map_cons, List.map_cons, hviews,
          (Cursor.remove_smooth hok1 hsmooth).1]
        exact ⟨⟨hsmooth, hspared⟩, rfl⟩
      | false =>
        rw [hsel, if_neg Bool.false_ne_true] at hrest hcount
        rw [List.length_cons] at hcount
        have hsize : (names (⟨as, r :: bs, d + 1⟩ : Cursor).ranges).length =
            (names (as ++ r :: bs)).length := rfl
        obtain ⟨hspared, hviews⟩ := ih (n + 1) _ hok1 hrest (by omega) (by omega)
        have hdeep : d + 1 < 2147483648 := by
          by_contra hdeep
          cases fuel with
          | zero => cases hrest
          | succ fuel =>
            rw [Cursor.run, if_neg hdeep] at hrest
            cases hrest
        rw [if_neg Bool.false_ne_true, List.map_cons, List.map_cons, hviews]
        exact ⟨⟨hdeep, hspared⟩, rfl⟩

end

/-! ## Whole lists -/

/-- The slots in use hold ranges whose bounds are in order, and the others are
NULL. -/
structure Hostlist.Stores (hl : Hostlist) (rs : List HostRange) : Prop where
  shape : ∃ free n, hl = Hostlist.ofRanges rs free n
  ok : ∀ r ∈ rs, r.Wf ∧ r.Ordered

/-- The lists built from accepted strings are such lists where no push has joined
ranges past the largest number. -/
theorem Built.stores {hl : Hostlist} (hb : Built hl) {rs : List HostRange}
    (hrs : hl.ranges = some rs) (ho : ∀ r ∈ rs, r.Ordered) : hl.Stores rs := by
  obtain ⟨rs', h⟩ := hb.holds
  obtain rfl : rs' = rs := Option.some.inj (h.ranges.symm.trans hrs)
  obtain ⟨⟨free, rfl⟩, hok⟩ := h
  exact ⟨⟨free, _, rfl⟩, fun r hr => ⟨(hok r hr).toWf, ho r hr⟩⟩

theorem nextName_eq_placeName_iff {p : HostRange × Nat} :
    nextName p = some (placeName p) ↔ (placeName p).length ≤ maxHostNameLen + 14 := by
  constructor
  · intro h
    unfold nextName at h
    split at h
    · cases h
    · have htake := Option.some.inj h
      rw [← htake]
      exact List.length_take_le _ _
  · intro h
    have hone : (maxHostNameLen + 14) ≥ (placeName p).length := h
    rw [nextName, if_neg, List.take_of_length_le hone]
    rintro ⟨hs, hlong⟩
    have hpfx := pfx_length_le hs
    omega

/-- A choice and a list that a traversal gets through. -/
structure Traversable (sel : Nat → Bool) (rs : List HostRange) : Prop where
  printed : ∀ name ∈ names rs, name.length ≤ maxHostNameLen + 14
  spared : Spared sel 0 0 0 (places rs)

theorem mapM_nextName_view {ps qs : List (HostRange × Nat)} (h : ps.map view = qs.map view) :
    ps.mapM nextName = qs.mapM nextName := by
  have hviews := congrArg (List.mapM nextName) h
  rw [List.mapM_map, List.mapM_map] at hviews
  exact hviews

theorem traverses_ofRanges {rs : List HostRange} (hok : ∀ r ∈ rs, r.Wf ∧ r.Ordered)
    (sel : Nat → Bool) (free : Nat) (m : Int) :
    Traverses sel (Hostlist.ofRanges rs free m) ↔ Traversable sel rs := by
  have hwf : ∀ r ∈ rs, r.Wf := fun r hr => (hok r hr).1
  have hc : (⟨[], rs, 0⟩ : Cursor).Ok := ⟨hok, fun s _ => Nat.zero_le _, fun _ => rfl⟩
  have hleft : (⟨[], rs, 0⟩ : Cursor).left = (0, 0) :=
    Cursor.left_start fun r hr => (hok r hr).2
  have hahead : (⟨[], rs, 0⟩ : Cursor).ahead = places rs := Cursor.ahead_start [] rs
  have hspared : (⟨[], rs, 0⟩ : Cursor).Spared sel 0 ↔ Spared sel 0 0 0 (places rs) := by
    rw [Cursor.Spared, hleft, hahead]
  have hnames := names_eq_places hwf
  have hlen := length_places hwf
  constructor
  · rintro ⟨rs', hrs, fuel, hl', rs1, hrun, hrs1, hrest⟩
    obtain rfl : rs = rs' := Option.some.inj ((ofRanges_ranges rs free m).symm.trans hrs)
    obtain ⟨ps, c', free', m', hcur, hprint, rfl⟩ :=
      run_of_traverse fuel 0 ⟨[], rs, 0⟩ free m hc hrun
    obtain rfl : c'.ranges = rs1 := Option.some.inj ((ofRanges_ranges _ _ _).symm.trans hrs1)
    have hcount : ps.length = (names rs).length := (length_of_mapM hprint).symm
    have hfinal := congrArg List.length hrest
    rw [length_unchosen hcount.symm] at hfinal
    have hstart : (names (⟨[], rs, 0⟩ : Cursor).ranges).length = (names rs).length := rfl
    obtain ⟨hsp, hviews⟩ := Cursor.spared_of_run fuel 0 _ hc hcur
      (by rw [hahead]; omega) (by omega)
    refine ⟨fun name hname => ?_, hspared.mp hsp⟩
    rw [hahead] at hviews
    rw [mapM_nextName_view hviews, hnames] at hprint
    rw [hnames] at hname
    obtain ⟨p, hp, rfl⟩ := List.mem_map.mp hname
    exact nextName_eq_placeName_iff.mp (mapM_eq_map_iff.mp hprint p hp)
  · rintro ⟨hprinted, hs⟩
    obtain ⟨ps, c', hcur, hviews, hok', hfinal⟩ :=
      Cursor.run_of_spared ((names rs).length + 1) 0 ⟨[], rs, 0⟩ hc (Nat.succ_pos _)
        (hspared.mpr hs) (by rw [hahead]; omega)
    have hprint : ps.mapM nextName = some (names rs) := by
      rw [hahead] at hviews
      rw [mapM_nextName_view hviews, hnames]
      apply mapM_eq_map_iff.mpr
      intro p hp
      apply nextName_eq_placeName_iff.mpr
      apply hprinted
      rw [hnames]
      exact List.mem_map_of_mem hp
    obtain ⟨free', m', hrun⟩ :=
      traverse_of_run ((names rs).length + 1) 0 ⟨[], rs, 0⟩ free m hc hcur hprint
    refine ⟨rs, ofRanges_ranges rs free m, _, _, _, hrun, ofRanges_ranges _ _ _, ?_⟩
    rw [hfinal, hahead, ← hnames, Cursor.behind_start]
    rfl

/-- A traversal that removes the chosen hosts right after they were returned
returns every host once and in order, and leaves those not chosen, exactly when
every name fits the text it is printed into and the choice is spared. -/
theorem traverses_iff {hl : Hostlist} {rs : List HostRange} (h : hl.Stores rs)
    (sel : Nat → Bool) : Traverses sel hl ↔ Traversable sel rs := by
  obtain ⟨⟨free, m, rfl⟩, hok⟩ := h
  exact traverses_ofRanges hok sel free m

/-- Two hosts in the middle of a range. -/
theorem traverses_example : ∃ hl, hostlistCreate "a[1-4],b".toList = .ok hl ∧
    Traverses (fun n => n == 1 || n == 2) hl := by
  have hcreate : hostlistCreate "a[1-4],b".toList =
      .ok (Hostlist.ofRanges [hostrangeCreate ['a'] 1 4 1, hostrangeCreateSingle ['b']] 14 5) :=
    rfl
  have hstores := Built.stores (.create hcreate) (ofRanges_ranges _ _ _) (by decide)
  refine ⟨_, hcreate, (traverses_iff hstores _).mpr ⟨?_, ?_⟩⟩
  · decide
  · decide

/-- The last host of a list is removed: the iterator moves into the range before
and returns two of its hosts again. -/
theorem not_traverses_last : ¬ ∀ hl sel, Built hl → Traverses sel hl := by
  intro h
  have hcreate : hostlistCreate "a[1-3],b".toList =
      .ok (Hostlist.ofRanges [hostrangeCreate ['a'] 1 3 1, hostrangeCreateSingle ['b']] 14 4) :=
    rfl
  have hstores := Built.stores (.create hcreate) (ofRanges_ranges _ _ _) (by decide)
  have hrun := h _ (fun n => n == 3) (.create hcreate)
  have hspared := ((traverses_ofRanges hstores.ok _ _ _).mp hrun).spared
  revert hspared
  decide

end Slurm.Hosts
