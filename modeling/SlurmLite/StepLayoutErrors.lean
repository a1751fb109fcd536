import SlurmLite.StepLayout

/-!
# Broken step layouts

`unpack_slurm_step_layout` on any bytes, with the memory it works on: a step layout is
built up field by field, and a field that cannot be read ends in
`slurm_step_layout_destroy`, which frees as many arrays of task ids as the node count says,
whether or not they are there yet. Pointers are checked at every access. What `xmalloc`
finds memory for is the parameter `grants`; it ends the process when it finds none.

* **Reading** (`unpackSlurmStepLayoutMem`): the function, with each way it can end.
* **Rules** (`wp_take`, `wp_takeStr`, `wp_takeNodes`): what a part needs so that the
  function returns.
* **Result** (`returns_iff`): the bytes for which it returns, with a layout or an error.
* **Layouts** (`unpackSlurmStepLayoutMem_ok`): what was read is what the unpacker reads.
-/

namespace Slurm.Layout

open Base.Bytes Base.CLib Slurm.Pack

/-! ## Reading -/

/-- `slurm_step_layout_t` in memory; no array is the NULL pointer. -/
structure LayoutMem where
  nodeList : Option CString
  nodeCnt : UInt32
  taskCnt : UInt32
  taskDist : UInt16
  tasks : Option (List UInt16)
  tids : Option (List (Option (List UInt32)))
deriving DecidableEq

/-- A layout as `xmalloc` clears it. -/
def LayoutMem.cleared : LayoutMem := ⟨none, 0, 0, 0, none, none⟩

/-- How `unpack_slurm_step_layout` ends without success. -/
inductive Ending
  /-- `SLURM_ERROR`, and `*layout` is NULL. -/
  | error
  /-- `xmalloc` ends the process. -/
  | exits
  /-- An access outside an array, or of one that is not there. -/
  | faults
deriving DecidableEq

/-- The loop of `slurm_step_layout_destroy` over the nodes from `i` on: whether each
`tids[i]` is there and the `int` can count it. -/
def freeTids : Nat → Nat → List (Option (List UInt32)) → Bool
  | 0, _, _ => true
  | n + 1, i, tids =>
    if i < tids.length ∧ i < 2147483647 then freeTids n (i + 1) (tids.set i none) else false

/-- `slurm_step_layout_destroy`: whether it ends without a fault. -/
def slurmStepLayoutDestroy : Option LayoutMem → Bool
  | none => true
  | some l => freeTids l.nodeCnt.toNat 0 (l.tids.getD [])

/-- `unpack_error:`. -/
def unpackError (l : Option LayoutMem) : Ending :=
  if slurmStepLayoutDestroy l then .error else .faults

/-- A part of the function, which goes on with a value or ends. -/
abbrev Run (α : Type) : Type := Except Ending α

/-- The `safe_unpack` macros: without a value, on to `unpack_error`. -/
def take {α : Type} (u : Unpacker α) (l : Option LayoutMem) (b : Buf) : Run (α × Buf) :=
  match u b with
  | (some x, b) => pure (x, b)
  | (none, _) => throw (unpackError l)

/-- `xmalloc`. -/
def xmalloc (grants : Nat → Bool) (size : Nat) : Run Unit :=
  if grants size then pure () else throw .exits

/-- `safe_unpackstr_xmalloc`. -/
def takeStr (grants : Nat → Bool) (l : Option LayoutMem) (b : Buf) :
    Run (Option CString × Buf) := do
  let (size, b) ← take unpack32 l b
  if size > 0 then
    if b.remaining < size.toNat then throw (unpackError l)
    else
      xmalloc grants size.toNat
      let (valp, b) ← take (unpackBytes size.toNat) l b
      pure (some (CString.ofBytes valp), b)
  else pure (none, b)

/-- The values that can be read, at most `n`. -/
def readSome {α : Type} (u : Unpacker α) : Nat → Buf → List α × Buf
  | 0, b => ([], b)
  | n + 1, b =>
    match u b with
    | (some x, b) => (x :: (readSome u n b).1, (readSome u n b).2)
    | (none, b) => ([], b)

namespace LayoutMem

/-- `tids[i] = ids`. -/
def storeTids (l : LayoutMem) (i : Nat) (ids : List UInt32) : Run LayoutMem :=
  match l.tids with
  | some tids =>
    if i < tids.length then pure { l with tids := some (tids.set i (some ids)) }
    else throw .faults
  | none => throw .faults

/-- `tasks[i] = num_tids`. -/
def storeTasks (l : LayoutMem) (i : Nat) (numTids : UInt32) : Run LayoutMem :=
  match l.tasks with
  | some tasks =>
    if i < tasks.length then pure { l with tasks := some (tasks.set i numTids.toUInt16) }
    else throw .faults
  | none => throw .faults

end LayoutMem

/-- `safe_unpack32_array` into `tids[i]`, which points to the array before its values are
read. -/
def takeArray (grants : Nat → Bool) (l : LayoutMem) (i : Nat) (b : Buf) :
    Run (LayoutMem × UInt32 × Buf) := do
  let (size, b) ← take unpack32 (some l) b
  xmalloc grants (4 * size.toNat)
  let (ids, b) := readSome unpack32 size.toNat b
  let l ← l.storeTids i (ids ++ List.replicate (size.toNat - ids.length) 0)
  if ids.length < size.toNat then throw (unpackError (some l)) else pure (l, size, b)

/-- The loop over the nodes, of which `n` are left from `i` on. A buffer has too few bytes
for `i` to pass an `int`. -/
def takeNodes (grants : Nat → Bool) : Nat → Nat → LayoutMem → Buf → Run LayoutMem
  | 0, _, l, _ => pure l
  | n + 1, i, l, b => do
    let (l, numTids, b) ← takeArray grants l i b
    let l ← l.storeTasks i numTids
    takeNodes grants n (i + 1) l b

/-- `sizeof(slurm_step_layout_t)`. -/
def layoutSize : Nat := 48

/-- `unpack_slurm_step_layout`; success without a layout leaves `*layout` as it was. The
array `tasks` is allocated for `uint32_t` and has twice the entries. -/
def unpackSlurmStepLayoutMem (grants : Nat → Bool) (b : Buf) : Run (Option LayoutMem) := do
  let (flag, b) ← take unpack16 none b
  if flag = 0 then pure none
  else
    xmalloc grants layoutSize
    let l := LayoutMem.cleared
    let (nodeList, b) ← takeStr grants (some l) b
    let l := { l with nodeList }
    let (nodeCnt, b) ← take unpack32 (some l) b
    let l := { l with nodeCnt }
    let (taskCnt, b) ← take unpack32 (some l) b
    let l := { l with taskCnt }
    let (taskDist, b) ← take unpack16 (some l) b
    let l := { l with taskDist }
    xmalloc grants (4 * nodeCnt.toNat)
    let l := { l with tasks := some (List.replicate (2 * nodeCnt.toNat) 0) }
    xmalloc grants (8 * nodeCnt.toNat)
    let l := { l with tids := some (List.replicate nodeCnt.toNat none) }
    let l ← takeNodes grants nodeCnt.toNat 0 l b
    pure (some l)

/-- The function returns with an error. -/
def Ending.Returns : Ending → Prop
  | error => True
  | exits => False
  | faults => False

/-- The function returns: with success, or with an error and `*layout` NULL. -/
def Returns (r : Run (Option LayoutMem)) : Prop :=
  match r with
  | .ok _ => True
  | .error ending => ending.Returns

/-! ## Rules -/

/-- What is read, if it can be read, has the property. -/
def Whenever {α : Type} (u : Unpacker α) (b : Buf) (P : α → Buf → Prop) : Prop :=
  ∀ x b', u b = (some x, b') → P x b'

/-- The value can be read. -/
def Readable {α : Type} (u : Unpacker α) (b : Buf) : Prop := ∃ x b', u b = (some x, b')

/-- A part of the function goes on with `Q`, or ends as it may. -/
def Wp {α : Type} (r : Run α) (Q : α → Prop) : Prop :=
  match r with
  | .ok x => Q x
  | .error ending => ending.Returns

theorem wp_pure {α : Type} {x : α} {Q : α → Prop} : Wp (pure x) Q ↔ Q x := Iff.rfl

theorem wp_throw {α : Type} {o : Ending} {Q : α → Prop} : Wp (throw o) Q ↔ o.Returns := Iff.rfl

theorem wp_bind {α β : Type} {r : Run α} {f : α → Run β} {Q : β → Prop} :
    Wp (r >>= f) Q ↔ Wp r fun x => Wp (f x) Q := by
  cases r <;> rfl

theorem returns_iff_wp {r : Run (Option LayoutMem)} : Returns r ↔ Wp r fun _ => True := by
  cases r <;> rfl

theorem returns_unpackError {l : Option LayoutMem} :
    (unpackError l).Returns ↔ slurmStepLayoutDestroy l = true := by
  unfold unpackError
  split
  · rename_i hdone
    simp [Ending.Returns, hdone]
  · rename_i hfault
    simp [Ending.Returns, hfault]

section Rules

variable {α : Type} {u : Unpacker α} {b : Buf}

theorem unpack_bind_some {β : Type} {f : α → Unpacker β} {x : α} {b' : Buf}
    (h : u b = (some x, b')) : (u >>= f) b = f x b' := by
  show (match u b with
    | (some x, b) => f x b
    | (none, b) => (none, b)) = f x b'
  rw [h]

theorem unpack_bind_none {β : Type} {f : α → Unpacker β} {b' : Buf} (h : u b = (none, b')) :
    (u >>= f) b = (none, b') := by
  show (match u b with
    | (some x, b) => f x b
    | (none, b) => (none, b)) = (none, b')
  rw [h]

theorem whenever_of_some {x : α} {b' : Buf} (h : u b = (some x, b')) {P : α → Buf → Prop} :
    Whenever u b P ↔ P x b' := by
  constructor
  · intro hall
    exact hall x b' h
  · intro hP y b2 hy
    obtain ⟨hx, hb⟩ := Prod.mk.inj (h.symm.trans hy)
    obtain rfl := Option.some.inj hx
    rwa [← hb]

theorem whenever_of_none {b' : Buf} (h : u b = (none, b')) {P : α → Buf → Prop} :
    Whenever u b P ↔ True := by
  simp [Whenever, h]

theorem readable_of_some {x : α} {b' : Buf} (h : u b = (some x, b')) : Readable u b ↔ True := by
  simp [Readable, h]

theorem readable_of_none {b' : Buf} (h : u b = (none, b')) : Readable u b ↔ False := by
  simp [Readable, h]

theorem wp_take {l : Option LayoutMem} {Q : α × Buf → Prop} :
    Wp (take u l b) Q ↔ Whenever u b (fun x b => Q (x, b)) ∧
      (¬ Readable u b → slurmStepLayoutDestroy l = true) := by
  unfold take
  cases hu : u b with
  | mk x b' =>
    cases x with
    | some x =>
      simp only [whenever_of_some hu, readable_of_some hu, not_true, false_implies, and_true]
      exact wp_pure
    | none =>
      simp only [whenever_of_none hu, readable_of_none hu, not_false_iff, true_implies,
        true_and]
      exact returns_unpackError

theorem wp_xmalloc {grants : Nat → Bool} {size : Nat} {Q : Unit → Prop} :
    Wp (xmalloc grants size) Q ↔ grants size = true ∧ Q () := by
  unfold xmalloc
  split
  · rename_i hgrant
    simp only [hgrant, true_and]
    exact wp_pure
  · rename_i hnone
    constructor
    · intro h
      exact h.elim
    · intro h
      exact absurd h.1 hnone

/-- A string is read as `unpackmem` reads its bytes, and asks for memory for them. -/
theorem wp_takeStr {grants : Nat → Bool} {l : Option LayoutMem}
    (hdone : slurmStepLayoutDestroy l = true) {Q : Option CString × Buf → Prop} :
    Wp (takeStr grants l b) Q ↔ Whenever unpackmem b fun data b =>
      (∀ valp, data = some valp → grants valp.length = true) ∧
        Q (data.map CString.ofBytes, b) := by
  unfold takeStr
  rw [wp_bind, wp_take]
  simp only [hdone, implies_true, and_true]
  cases hsize : unpack32 b with
  | mk size b1 =>
    cases size with
    | none =>
      have hmem : unpackmem b = (none, b1) := unpack_bind_none hsize
      rw [whenever_of_none hsize, whenever_of_none hmem]
    | some size =>
      rw [whenever_of_some hsize]
      have hrest : unpackmem b = (if size > 0 then
          (do let valp ← unpackBytes size.toNat; Pure.pure (some valp) : Unpacker _)
          else Pure.pure none) b1 := unpack_bind_some hsize
      by_cases hpos : size > 0
      · rw [if_pos hpos] at hrest
        simp only [if_pos hpos]
        by_cases hshort : b1.remaining < size.toNat
        · -- the bytes are not there, and no memory is asked for
          have hbytes : unpackBytes size.toNat b1 = (none, b1) :=
            dif_neg (Nat.not_le.mpr hshort)
          have hmem : unpackmem b = (none, b1) := hrest.trans (unpack_bind_none hbytes)
          rw [if_pos hshort, wp_throw, returns_unpackError, whenever_of_none hmem]
          simp [hdone]
        · obtain ⟨valp, b2, hbytes⟩ : ∃ valp b2, unpackBytes size.toNat b1 =
              (some valp, b2) := ⟨_, _, dif_pos (Nat.not_lt.mp hshort)⟩
          have hlen := (unpackBytes_spends hbytes).2
          have hmem : unpackmem b = (some (some valp), b2) :=
            hrest.trans (unpack_bind_some hbytes)
          rw [if_neg hshort, wp_bind, wp_xmalloc, wp_bind, wp_take,
            whenever_of_some hbytes, whenever_of_some hmem]
          simp [wp_pure, hlen, hdone]
      · rw [if_neg hpos] at hrest
        have hmem : unpackmem b = (some none, b1) := hrest
        simp only [if_neg hpos, wp_pure]
        rw [whenever_of_some hmem]
        simp

/-- All values are read if as many can be as are wanted. -/
theorem unpackMany_eq (n : Nat) :
    unpackMany u n b =
      (if (readSome u n b).1.length < n then none else some (readSome u n b).1,
        (readSome u n b).2) := by
  induction n generalizing b with
  | zero => rfl
  | succ n ih =>
    cases hu : u b with
    | mk x b1 =>
      cases x with
      | none =>
        rw [unpackMany, unpack_bind_none hu]
        simp [readSome, hu]
      | some x =>
        rw [unpackMany, unpack_bind_some hu]
        simp only [readSome, hu, List.length_cons, Nat.add_lt_add_iff_right]
        have hrest := @ih b1
        by_cases hlt : (readSome u n b1).1.length < n
        · rw [if_pos hlt] at hrest ⊢
          exact unpack_bind_none hrest
        · rw [if_neg hlt] at hrest ⊢
          exact unpack_bind_some hrest

end Rules

/-! ## Freeing -/

theorem freeTids_iff (n i : Nat) (tids : List (Option (List UInt32))) (h : i + n ≤ tids.length) :
    freeTids n i tids = true ↔ n = 0 ∨ i + n ≤ 2147483647 := by
  induction n generalizing i tids with
  | zero => simp [freeTids]
  | succ n ih =>
    have hin : i < tids.length := by omega
    rw [freeTids]
    by_cases hint : i < 2147483647
    · rw [if_pos ⟨hin, hint⟩, ih (i + 1) _ (by rw [List.length_set]; omega)]
      omega
    · rw [if_neg (fun hboth => hint hboth.2)]
      simp only [Bool.false_eq_true, false_iff]
      omega

/-- Without the array there must be no node. -/
theorem destroy_of_null {l : LayoutMem} (h : l.tids = none) :
    slurmStepLayoutDestroy (some l) = true ↔ l.nodeCnt = 0 := by
  rw [slurmStepLayoutDestroy, h, Option.getD_none, ← UInt32.toNat_inj]
  cases l.nodeCnt.toNat with
  | zero => simp [freeTids]
  | succ n => simp [freeTids]

/-- The arrays are there, with their entries for the nodes. -/
structure LayoutMem.Allocated (l : LayoutMem) : Prop where
  tids : ∃ tids, l.tids = some tids ∧ tids.length = l.nodeCnt.toNat
  tasks : ∃ tasks, l.tasks = some tasks ∧ l.nodeCnt.toNat ≤ tasks.length

namespace LayoutMem.Allocated

theorem destroy_iff {l : LayoutMem} (h : l.Allocated) :
    slurmStepLayoutDestroy (some l) = true ↔ l.nodeCnt.toNat ≤ 2147483647 := by
  obtain ⟨tids, htids, hlen⟩ := h.tids
  rw [slurmStepLayoutDestroy, htids, Option.getD_some,
    freeTids_iff _ _ _ (by rw [hlen, Nat.zero_add])]
  omega

theorem storeTids_eq {l : LayoutMem} (h : l.Allocated) {i : Nat} (hi : i < l.nodeCnt.toNat)
    (ids : List UInt32) :
    ∃ l', l.storeTids i ids = pure l' ∧ l'.Allocated ∧ l'.nodeCnt = l.nodeCnt := by
  obtain ⟨tids, htids, hlen⟩ := h.tids
  refine ⟨{ l with tids := some (tids.set i (some ids)) }, ?_, ⟨⟨_, rfl, ?_⟩, h.tasks⟩, rfl⟩
  · unfold storeTids
    simp only [htids]
    rw [if_pos (by omega)]
  · rw [List.length_set, hlen]

theorem storeTasks_eq {l : LayoutMem} (h : l.Allocated) {i : Nat} (hi : i < l.nodeCnt.toNat)
    (numTids : UInt32) :
    ∃ l', l.storeTasks i numTids = pure l' ∧ l'.Allocated ∧ l'.nodeCnt = l.nodeCnt := by
  obtain ⟨tasks, htasks, hlen⟩ := h.tasks
  refine ⟨{ l with tasks := some (tasks.set i numTids.toUInt16) }, ?_,
    ⟨h.tids, ⟨_, rfl, ?_⟩⟩, rfl⟩
  · unfold storeTasks
    simp only [htasks]
    rw [if_pos (by omega)]
  · rw [List.length_set]
    exact hlen

end LayoutMem.Allocated

/-! ## Nodes -/

/-- There is memory for each array whose length can be read. -/
def ArraysGranted (grants : Nat → Bool) : Nat → Buf → Prop
  | 0, _ => True
  | n + 1, b => Whenever unpack32 b fun size b =>
    grants (4 * size.toNat) = true ∧
      Whenever (unpackMany unpack32 size.toNat) b fun _ b => ArraysGranted grants n b

section Nodes

variable {grants : Nat → Bool} {l : LayoutMem} {i : Nat} {b : Buf}

theorem readable_many_of_none {α : Type} {u : Unpacker α} {n : Nat} {b' : Buf}
    (h : u b = (none, b')) : Readable (unpackMany u (n + 1)) b ↔ False := by
  rw [unpackMany]
  exact readable_of_none (unpack_bind_none h)

/-- One more value is read before the others. -/
theorem readable_many_of_some {α : Type} {u : Unpacker α} {n : Nat} {x : α} {b' : Buf}
    (h : u b = (some x, b')) :
    Readable (unpackMany u (n + 1)) b ↔ Readable (unpackMany u n) b' := by
  rw [unpackMany, Readable, unpack_bind_some h]
  constructor
  · intro hread
    obtain ⟨xs, b2, hxs⟩ := hread
    obtain ⟨ys, b3, hys, -⟩ := bind_eq_some hxs
    exact ⟨ys, b3, hys⟩
  · intro hread
    obtain ⟨ys, b3, hys⟩ := hread
    exact ⟨x :: ys, b3, unpack_bind_some hys⟩

/-- An array of ids, and what the function needs to give up on it. -/
theorem wp_takeArray (hl : l.Allocated) (hi : i < l.nodeCnt.toNat)
    {Q : LayoutMem × UInt32 × Buf → Prop} :
    Wp (takeArray grants l i b) Q ↔
      (Whenever unpack32 b fun size b => grants (4 * size.toNat) = true ∧
        (Whenever (unpackMany unpack32 size.toNat) b fun ids b =>
          Wp (l.storeTids i ids) fun l => Q (l, size, b)) ∧
        (¬ Readable (unpackMany unpack32 size.toNat) b → l.nodeCnt.toNat ≤ 2147483647)) ∧
      (¬ Readable unpack32 b → l.nodeCnt.toNat ≤ 2147483647) := by
  unfold takeArray
  rw [wp_bind, wp_take, hl.destroy_iff]
  apply and_congr_left
  intro _
  cases hsize : unpack32 b with
  | mk size b1 =>
    cases size with
    | none => rw [whenever_of_none hsize, whenever_of_none hsize]
    | some size =>
      rw [whenever_of_some hsize, whenever_of_some hsize]
      simp only [wp_bind]
      rw [wp_xmalloc]
      apply and_congr_right
      intro _
      have hmany := @unpackMany_eq _ unpack32 b1 size.toNat
      by_cases hlt : (readSome unpack32 size.toNat b1).1.length < size.toNat
      · rw [if_pos hlt] at hmany
        obtain ⟨l', hstore, hl', hcnt⟩ := hl.storeTids_eq hi
          ((readSome unpack32 size.toNat b1).1 ++ List.replicate
            (size.toNat - (readSome unpack32 size.toNat b1).1.length) 0)
        rw [whenever_of_none hmany, readable_of_none hmany, hstore, wp_pure, if_pos hlt,
          wp_throw, returns_unpackError, hl'.destroy_iff, hcnt]
        simp
      · rw [if_neg hlt] at hmany
        -- nothing is left of the array to clear
        have hfull : size.toNat - (readSome unpack32 size.toNat b1).1.length = 0 := by omega
        rw [whenever_of_some hmany, readable_of_some hmany]
        simp only [hfull, if_neg hlt, List.replicate_zero, List.append_nil, not_true,
          false_implies, and_true, wp_pure]

/-- The nodes need memory for their arrays, and a count an `int` can reach when they are
not all there. -/
theorem wp_takeNodes (n : Nat) (hl : l.Allocated) (hi : i + n = l.nodeCnt.toNat) :
    Wp (takeNodes grants n i l b) (fun _ => True) ↔ ArraysGranted grants n b ∧
      (¬ Readable (unpackMany unpack32Array n) b → l.nodeCnt.toNat ≤ 2147483647) := by
  induction n generalizing i l b with
  | zero =>
    have hread : Readable (unpackMany unpack32Array 0) b := ⟨[], b, rfl⟩
    simp only [takeNodes, wp_pure, ArraysGranted, hread, not_true, false_implies, and_self]
  | succ n ih =>
    rw [takeNodes, wp_bind, wp_takeArray hl (by omega), ArraysGranted]
    cases hsize : unpack32 b with
    | mk size b1 =>
      cases size with
      | none =>
        have hnone : unpack32Array b = (none, b1) := unpack_bind_none hsize
        simp only [whenever_of_none hsize, readable_of_none hsize,
          readable_many_of_none hnone]
      | some size =>
        simp only [whenever_of_some hsize, readable_of_some hsize, not_true, false_implies,
          and_true, and_assoc]
        apply and_congr_right
        intro _
        cases hmany : unpackMany unpack32 size.toNat b1 with
        | mk ids b2 =>
          cases ids with
          | none =>
            have hnone : unpack32Array b = (none, b2) :=
              (unpack_bind_some hsize).trans hmany
            simp only [whenever_of_none hmany, readable_of_none hmany,
              readable_many_of_none hnone]
          | some ids =>
            have hsome : unpack32Array b = (some ids, b2) :=
              (unpack_bind_some hsize).trans hmany
            obtain ⟨l', hstore, hl', hcnt⟩ := hl.storeTids_eq (i := i) (by omega) ids
            rw [← hcnt] at hi
            obtain ⟨l2, hstore2, hl2, hcnt2⟩ := hl'.storeTasks_eq (i := i) (by omega) size
            rw [← hcnt2] at hi
            simp only [whenever_of_some hmany, readable_of_some hmany, not_true,
              false_implies, and_true, readable_many_of_some hsome]
            rw [hstore, wp_pure, wp_bind, hstore2, wp_pure, ih hl2 (by omega), hcnt2,
              hcnt]

/-- Each array takes four bytes at least, so there are fewer of them than an `int` counts. -/
theorem le_of_readable_arrays {n : Nat} (h : Readable (unpackMany unpack32Array n) b) :
    n ≤ 2147483647 := by
  obtain ⟨tids, b', hread⟩ := h
  obtain ⟨hlen, hsum⟩ := unpackMany_spends unpack32Array_spends hread
  have hfour : 4 * tids.length ≤ (tids.map fun ids => 4 + 4 * ids.length).sum := by
    clear hlen hsum hread
    induction tids with
    | nil => simp
    | cons ids tids ih =>
      rw [List.map_cons, List.sum_cons, List.length_cons]
      omega
  have hin := b'.inBounds
  have hlt := b'.size_lt
  omega

end Nodes

/-! ## Result -/

/-- What the bytes must be like: once a node list and a node count are there, the task
count and the distribution are too, unless there is no node; the count fits an `int`; and
there is memory for what is asked for. -/
def Unbroken (grants : Nat → Bool) (b : Buf) : Prop :=
  Whenever unpack16 b fun flag b => flag ≠ 0 →
    grants layoutSize = true ∧
    Whenever unpackmem b fun nodeList b =>
      (∀ valp, nodeList = some valp → grants valp.length = true) ∧
      Whenever unpack32 b fun nodeCnt b =>
        (nodeCnt ≠ 0 → Readable unpack32 b) ∧
        Whenever unpack32 b fun _ b =>
          (nodeCnt ≠ 0 → Readable unpack16 b) ∧
          Whenever unpack16 b fun _ b =>
            grants (4 * nodeCnt.toNat) = true ∧ grants (8 * nodeCnt.toNat) = true ∧
            nodeCnt.toNat ≤ 2147483647 ∧ ArraysGranted grants nodeCnt.toNat b

theorem whenever_congr {α : Type} {u : Unpacker α} {b : Buf} {P Q : α → Buf → Prop}
    (h : ∀ x b', P x b' ↔ Q x b') : Whenever u b P ↔ Whenever u b Q := by
  constructor
  · intro hP x b' hx
    exact (h x b').mp (hP x b' hx)
  · intro hQ x b' hx
    exact (h x b').mpr (hQ x b' hx)

/-- The arrays of the nodes once they are allocated. -/
theorem wp_nodes {grants : Nat → Bool} {l : LayoutMem} {b : Buf} (hl : l.Allocated) {n : Nat}
    (hn : l.nodeCnt.toNat = n) :
    Wp (takeNodes grants n 0 l b >>= fun l => pure (some l)) (fun _ => True) ↔
      n ≤ 2147483647 ∧ ArraysGranted grants n b := by
  subst hn
  rw [wp_bind]
  show Wp (takeNodes grants l.nodeCnt.toNat 0 l b) (fun _ => True) ↔ _
  rw [wp_takeNodes _ hl (Nat.zero_add _), and_comm]
  apply and_congr_left
  intro _
  constructor
  · intro h
    by_cases hread : Readable (unpackMany unpack32Array l.nodeCnt.toNat) b
    · exact le_of_readable_arrays hread
    · exact h hread
  · intro h _
    exact h

/-- **Broken step layouts.** `unpack_slurm_step_layout` returns, with a layout or with an
error and no layout, if and only if the bytes are unbroken. -/
theorem returns_iff (grants : Nat → Bool) (b : Buf) :
    Returns (unpackSlurmStepLayoutMem grants b) ↔ Unbroken grants b := by
  rw [returns_iff_wp, unpackSlurmStepLayoutMem, wp_bind, wp_take]
  have hnull : slurmStepLayoutDestroy none = true := rfl
  simp only [hnull, implies_true, and_true]
  apply whenever_congr
  intro flag b
  by_cases hflag : flag = 0
  · simp [hflag, wp_pure]
  · have hset (P : Prop) : (flag ≠ 0 → P) ↔ P := ⟨fun h => h hflag, fun h _ => h⟩
    simp only [if_neg hflag]
    rw [hset, wp_bind, wp_xmalloc, wp_bind, wp_takeStr rfl]
    apply and_congr_right
    intro _
    apply whenever_congr
    intro nodeList b
    apply and_congr_right
    intro _
    -- the node count is still 0 when it cannot be read
    have hzero : LayoutMem.cleared.nodeCnt = 0 := rfl
    rw [wp_bind, wp_take, destroy_of_null rfl]
    simp only [hzero, implies_true, and_true]
    apply whenever_congr
    intro nodeCnt b
    rw [wp_bind, wp_take, destroy_of_null rfl, and_comm]
    have hread {α : Type} (u : Unpacker α) (b : Buf) :
        (¬ Readable u b → nodeCnt = 0) ↔ (nodeCnt ≠ 0 → Readable u b) := not_imp_comm
    rw [hread]
    apply and_congr_right
    intro _
    apply whenever_congr
    intro taskCnt b
    rw [wp_bind, wp_take, destroy_of_null rfl, and_comm, hread]
    apply and_congr_right
    intro _
    apply whenever_congr
    intro taskDist b
    rw [wp_bind, wp_xmalloc, wp_bind, wp_xmalloc]
    apply and_congr_right
    intro _
    apply and_congr_right
    intro _
    apply wp_nodes
    · refine ⟨⟨_, rfl, List.length_replicate⟩, ⟨_, rfl, ?_⟩⟩
      show nodeCnt.toNat ≤ (List.replicate (2 * nodeCnt.toNat) (0 : UInt16)).length
      rw [List.length_replicate]
      omega
    · rfl

/-- The bytes of a layout with one node, up to its node count. -/
def cutOff : Buf :=
  { head := [0, 1, 0, 0, 0, 0, 0, 0, 0, 1], processed := 0
    inBounds := Nat.zero_le _, size_lt := by decide }

/-- The node is counted and its array is freed before there is one. -/
theorem not_returns_cutOff : ¬ Returns (unpackSlurmStepLayoutMem (fun _ => true) cutOff) := by
  have hfault : unpackSlurmStepLayoutMem (fun _ => true) cutOff = .error .faults := rfl
  rw [hfault]
  exact id

/-! ## Layouts -/

theorem ok_bind {α β : Type} {r : Run α} {f : α → Run β} {y : β} (h : r >>= f = .ok y) :
    ∃ x, r = .ok x ∧ f x = .ok y := by
  cases r with
  | ok x => exact ⟨x, rfl, h⟩
  | error o => cases h

theorem ok_take {α : Type} {u : Unpacker α} {l : Option LayoutMem} {b b' : Buf} {x : α}
    (h : take u l b = .ok (x, b')) : u b = (some x, b') := by
  unfold take at h
  split at h
  · rename_i x' b1 hu
    obtain ⟨rfl, rfl⟩ := Prod.mk.inj (Except.ok.inj h)
    exact hu
  · cases h

theorem ok_takeStr {grants : Nat → Bool} {l : Option LayoutMem} {b b' : Buf}
    {s : Option CString} (h : takeStr grants l b = .ok (s, b')) :
    unpackstr b = (some s, b') := by
  obtain ⟨⟨size, b1⟩, hsize, hrest⟩ := ok_bind h
  have hmem (data : Option (List UInt8)) (hdata : (if size > 0 then
      (do let valp ← unpackBytes size.toNat; pure (some valp) : Unpacker _) else pure none) b1 =
        (some data, b')) : unpackstr b = (some (data.map CString.ofBytes), b') := by
    have hunpack : unpackmem b = (some data, b') :=
      (unpack_bind_some (ok_take hsize)).trans hdata
    exact unpack_bind_some hunpack
  by_cases hpos : size > 0
  · simp only [if_pos hpos] at hrest hmem
    split at hrest
    · cases hrest
    · obtain ⟨_, -, hread⟩ := ok_bind hrest
      obtain ⟨⟨valp, b2⟩, hbytes, hlast⟩ := ok_bind hread
      obtain ⟨rfl, rfl⟩ := Prod.mk.inj (Except.ok.inj hlast)
      exact hmem (some valp) (unpack_bind_some (ok_take hbytes))
  · simp only [if_neg hpos] at hrest hmem
    obtain ⟨rfl, rfl⟩ := Prod.mk.inj (Except.ok.inj hrest)
    exact hmem none rfl

theorem ok_takeArray {grants : Nat → Bool} {l l' : LayoutMem} {i : Nat} {b b' : Buf}
    {size : UInt32} (h : takeArray grants l i b = .ok (l', size, b')) :
    ∃ ids, unpack32Array b = (some ids, b') ∧ ids.length = size.toNat ∧
      l.storeTids i ids = .ok l' := by
  obtain ⟨⟨size', b1⟩, hsize, hrest⟩ := ok_bind h
  obtain ⟨_, -, hread⟩ := ok_bind hrest
  obtain ⟨l2, hstore, hlast⟩ := ok_bind hread
  have hmany := @unpackMany_eq _ unpack32 b1 size'.toNat
  split at hlast
  · cases hlast
  · rename_i hall
    obtain ⟨rfl, hpair⟩ := Prod.mk.inj (Except.ok.inj hlast)
    obtain ⟨rfl, rfl⟩ := Prod.mk.inj hpair
    rw [if_neg hall] at hmany
    have hlen := (unpackMany_spends (n := fun _ => 0)
      (fun {b b' x} hx => by have := unpackNum_spends hx; omega) hmany).1
    refine ⟨_, (unpack_bind_some (ok_take hsize)).trans hmany, hlen, ?_⟩
    rw [hlen, Nat.sub_self, List.replicate_zero, List.append_nil] at hstore
    exact hstore

/-- The arrays after nodes `0` to `i - 1`, with `n` nodes to come. -/
def LayoutMem.Holds (l : LayoutMem) (tids : List (List UInt32)) (n : Nat) : Prop :=
  l.tids = some (tids.map some ++ List.replicate n none) ∧
    ∃ free, n ≤ free ∧ l.tasks =
      some (tids.map (fun ids => UInt16.ofNat ids.length) ++ List.replicate free 0)

theorem LayoutMem.Holds.store {l l1 l2 : LayoutMem} {done : List (List UInt32)} {n : Nat}
    (h : l.Holds done (n + 1)) {ids : List UInt32} {size : UInt32}
    (hsize : ids.length = size.toNat) (htids : l.storeTids done.length ids = .ok l1)
    (htasks : l1.storeTasks done.length size = .ok l2) :
    l2.Holds (done ++ [ids]) n ∧ l2 = { l with tids := l2.tids, tasks := l2.tasks } := by
  obtain ⟨holdTids, free, hfree, holdTasks⟩ := h
  obtain ⟨free, rfl⟩ : ∃ k, free = k + 1 := ⟨free - 1, by omega⟩
  unfold storeTids at htids
  rw [holdTids] at htids
  have hin : done.length < (done.map some ++ List.replicate (n + 1) none).length := by simp
  simp only [if_pos hin] at htids
  obtain rfl := Except.ok.inj htids
  unfold storeTasks at htasks
  simp only [holdTasks] at htasks
  rw [if_pos (by simp)] at htasks
  obtain rfl := Except.ok.inj htasks
  have hcast : size.toUInt16 = UInt16.ofNat ids.length := by
    rw [hsize]
    rfl
  refine ⟨⟨?_, free, by omega, ?_⟩, rfl⟩
  · simp [List.replicate_succ]
  · simp [List.replicate_succ, hcast]

theorem ok_takeNodes {grants : Nat → Bool} {n : Nat} {l l' : LayoutMem} {b : Buf}
    {done : List (List UInt32)} (hl : l.Holds done n)
    (h : takeNodes grants n done.length l b = .ok l') :
    ∃ tids b', unpackMany unpack32Array n b = (some tids, b') ∧
      l'.Holds (done ++ tids) 0 ∧ l' = { l with tids := l'.tids, tasks := l'.tasks } := by
  induction n generalizing l b done with
  | zero =>
    obtain rfl := Except.ok.inj h
    exact ⟨[], b, rfl, by rwa [List.append_nil], rfl⟩
  | succ n ih =>
    obtain ⟨⟨l1, size, b1⟩, harray, hrest⟩ := ok_bind h
    obtain ⟨l2, htasks, hlast⟩ := ok_bind hrest
    obtain ⟨ids, hids, hlen, htids⟩ := ok_takeArray harray
    obtain ⟨hholds, hsame⟩ := hl.store hlen htids htasks
    have hlength : done.length + 1 = (done ++ [ids]).length := by simp
    rw [hlength] at hlast
    obtain ⟨tids, b2, hmany, hall, hsame'⟩ := ih hholds hlast
    refine ⟨ids :: tids, b2, ?_, ?_, ?_⟩
    · rw [unpackMany, unpack_bind_some hids]
      exact unpack_bind_some hmany
    · simpa using hall
    · rw [hsame', hsame]

/-- A layout that was read is the one the unpacker reads from the same bytes. -/
theorem unpackSlurmStepLayoutMem_ok {grants : Nat → Bool} {b : Buf} {l : LayoutMem}
    (h : unpackSlurmStepLayoutMem grants b = .ok (some l)) :
    ∃ l' b', unpackSlurmStepLayout b = (some (some l'), b') ∧ l.nodeList = l'.nodeList ∧
      l.nodeCnt = l'.nodeCnt ∧ l.taskCnt = l'.taskCnt ∧ l.taskDist = l'.taskDist ∧
      l.Holds l'.tids 0 := by
  obtain ⟨⟨flag, b1⟩, hflag, hrest⟩ := ok_bind h
  by_cases hzero : flag = 0
  · simp only [if_pos hzero] at hrest
    cases Except.ok.inj hrest
  · simp only [if_neg hzero] at hrest
    obtain ⟨_, -, hrest⟩ := ok_bind hrest
    obtain ⟨⟨nodeList, b2⟩, hlist, hrest⟩ := ok_bind hrest
    obtain ⟨⟨nodeCnt, b3⟩, hcnt, hrest⟩ := ok_bind hrest
    obtain ⟨⟨taskCnt, b4⟩, htasks, hrest⟩ := ok_bind hrest
    obtain ⟨⟨taskDist, b5⟩, hdist, hrest⟩ := ok_bind hrest
    obtain ⟨_, -, hrest⟩ := ok_bind hrest
    obtain ⟨_, -, hrest⟩ := ok_bind hrest
    obtain ⟨l2, hnodes, hlast⟩ := ok_bind hrest
    obtain rfl := Option.some.inj (Except.ok.inj hlast)
    -- the arrays start with no node done
    obtain ⟨tids, b6, hmany, hholds, hsame⟩ := @ok_takeNodes _ _ _ _ _ []
      ⟨rfl, 2 * nodeCnt.toNat, Nat.le_mul_of_pos_left _ Nat.two_pos, rfl⟩ hnodes
    rw [hsame]
    refine ⟨⟨nodeList, nodeCnt, taskCnt, taskDist,
      tids.map fun ids => UInt16.ofNat ids.length, tids⟩, b6, ?_, rfl, rfl, rfl, rfl, hholds⟩
    rw [unpackSlurmStepLayout, unpack_bind_some (ok_take hflag), if_neg hzero,
      unpack_bind_some (ok_takeStr hlist), unpack_bind_some (ok_take hcnt),
      unpack_bind_some (ok_take htasks), unpack_bind_some (ok_take hdist),
      unpack_bind_some hmany]
    rfl

end Slurm.Layout
