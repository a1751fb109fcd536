import SlurmLite.AssocTable.Move

/-!
# The removal of associations

`_remove_common` takes associations out of the table. When no job was ever run
under them it deletes each one that is younger than a day with everything in its
interval and closes the gap; what is still there is only flagged.

* **The code** (`removeOne`, `removeCommon`), for associations that are selected
  themselves, and for those of users, accounts and clusters to remove.
* **The table after some branches were cut out** (`Pruned`).
* **What is gone** (`Pruned.run`): the branches of the young associations. Only
  young ones go exactly when these have nothing old below them
  (`removeCommon_removed_iff`).
-/

namespace Slurm.AssocTable

open Base.NestedSets

/-! ## The code -/

def deleteSecBack : Int := 86400

/-- What is removed: the associations that a condition on `assoc_table` selects, or
the condition that users, accounts or clusters to remove put on it. -/
inductive Removal where
  | assoc (sel : Row → Bool)
  | other (assocChar : Row → Bool)

/-- `lft` of the second row lies between the ends of the first one. -/
def between (t2 t1 : Row) : Bool := t2.lft ≤ t1.lft ∧ t1.lft ≤ t2.rgt

/-- The rows in the intervals of the rows selected, as
`acct_storage_p_remove_associations` finds them. -/
def withinSelected (sel : Row → Bool) (t : Table) (r : Row) : Bool :=
  (t.filter sel).any fun m => between m r

/-- `_check_jobs_before_remove`, `_check_jobs_before_remove_assoc`: the jobs are
given by the association they ran under. -/
def checkJobsBeforeRemove (removal : Removal) (jobs : List Nat) (t : Table) : Bool :=
  match removal with
  | .other assocChar =>
    t.any fun t2 => t.any fun t1 => between t2 t1 && assocChar t2 && jobs.contains t1.id
  | .assoc sel => t.any fun t2 => withinSelected sel t t2 && jobs.contains t2.id

/-- The ids that are removed. -/
def locAssocChar (removal : Removal) (t : Table) : List Nat :=
  match removal with
  | .other assocChar =>
    (t.filter fun t1 => t.any fun t2 =>
      assocChar t2 && between t2 t1 && t1.deleted = 0 && t2.deleted = 0).map fun r => r.id
  | .assoc sel => (t.filter (withinSelected sel t)).map fun r => r.id

/-- The row `id` is deleted with all that begins in its interval. -/
def removeOne (id : Nat) (t : Table) : Table :=
  match t.find? fun r => r.id = id with
  | none => t
  | some row =>
    let width := row.rgt - row.lft + 1
    let t := t.filter fun r => ¬(row.lft ≤ r.lft ∧ r.lft ≤ row.rgt)
    let t := update (fun r => r.rgt > row.rgt) (fun r => { r with rgt := r.rgt - width }) t
    update (fun r => r.lft > row.rgt) (fun r => { r with lft := r.lft - width }) t

/-- The flag and the limits of what is still there. -/
def flag (ids : List Nat) (now : Int) (r : Row) : Row :=
  stmt (fun r => r.id ∈ ids)
    (fun r => { r with
      modTime := now
      deleted := 1
      fairshare := 1
      maxJobs := none
      maxNodesPerJob := none
      maxWallDurationPerJob := none
      maxCpuMinsPerJob := none }) r

/-- `_remove_common`, as far as it changes `assoc_table`. -/
def removeCommon (removal : Removal) (jobs : List Nat) (now : Int) (t : Table) : Table :=
  let ids := locAssocChar removal t
  let dayOld := now - deleteSecBack
  if ids = [] then t
  else
    let t :=
      if checkJobsBeforeRemove removal jobs t then t
      else
        ((t.filter fun r => r.creationTime > dayOld ∧ r.id ∈ ids).map fun r => r.id).foldl
          (fun t id => removeOne id t) t
    t.map (flag ids now)

/-! ## Tables with branches cut out -/

/-- The rows in none of the branches. -/
def survivors (t : Table) (done : List Row) : Table :=
  t.filter fun r => ∀ x ∈ done, ¬Branch x.span r.span

/-- The table without the branches of `done`, with other positions. -/
structure Pruned (t : Table) (done : List Row) (f : Row → Row) : Prop where
  same : ∀ r, f r = { r with lft := (f r).lft, rgt := (f r).rgt }
  nested : Nested (spans ((survivors t done).map f))
  inside : ∀ r ∈ survivors t done, ∀ s ∈ survivors t done,
    Inside (f r).span (f s).span ↔ Inside r.span s.span

section Pruned

variable {t : Table} {done : List Row} {f : Row → Row} {x r s : Row}

theorem mem_survivors : r ∈ survivors t done ↔ r ∈ t ∧ ∀ x ∈ done, ¬Branch x.span r.span := by
  unfold survivors
  rw [List.mem_filter, decide_eq_true_eq]

theorem survivors_nil (t : Table) : survivors t [] = t := by
  unfold survivors
  refine List.filter_eq_self.mpr fun r _ => ?_
  simp only [List.not_mem_nil, false_implies, implies_true, decide_true]

theorem Pruned.start (h : WellFormed t) : Pruned t [] fun r => r := by
  refine ⟨fun _ => rfl, ?_, fun _ _ _ _ => Iff.rfl⟩
  rw [survivors_nil, List.map_id'' fun _ => rfl]
  exact h.nested

theorem Pruned.entry (hp : Pruned t done f) (r : Row) : (f r).toEntry = r.toEntry := by
  rw [hp.same r]

theorem Pruned.span_inj (hp : Pruned t done f) (hr : r ∈ survivors t done)
    (hs : s ∈ survivors t done) (heq : (f r).span = (f s).span) : r = s := by
  have hnodup := hp.nested.nodup
  unfold spans at hnodup
  rw [List.map_map] at hnodup
  exact List.inj_on_of_nodup_map hnodup hr hs heq

theorem Pruned.branch_iff (hp : Pruned t done f) (h : WellFormed t) (hx : x ∈ survivors t done)
    (hr : r ∈ survivors t done) : Branch (f x).span (f r).span ↔ Branch x.span r.span := by
  refine or_congr ⟨fun heq => ?_, fun heq => ?_⟩ (hp.inside r hr x hx)
  · rw [hp.span_inj hr hx heq]
  · rw [h.span_inj (mem_survivors.mp hr).1 (mem_survivors.mp hx).1 heq]

/-- A row that was cut out is found no more. -/
theorem Pruned.find_gone (hp : Pruned t done f) (h : WellFormed t) (hx : x ∈ t)
    (hgone : x ∉ survivors t done) :
    (((survivors t done).map f).find? fun r => r.id = x.id) = none := by
  refine List.find?_eq_none.mpr fun r' hr' => ?_
  obtain ⟨r, hr, rfl⟩ := List.mem_map.mp hr'
  simp only [hp.entry r, decide_eq_true_eq]
  intro heq
  rw [List.inj_on_of_nodup_map h.ids (mem_survivors.mp hr).1 hx heq] at hr
  exact hgone hr

theorem Pruned.find_left (hp : Pruned t done f) (h : WellFormed t) (hx : x ∈ survivors t done) :
    (((survivors t done).map f).find? fun r => r.id = x.id) = some (f x) := by
  cases hfind : ((survivors t done).map f).find? fun r => r.id = x.id with
  | none =>
    have := List.find?_eq_none.mp hfind (f x) (List.mem_map_of_mem hx)
    rw [hp.entry x] at this
    simp at this
  | some r' =>
    obtain ⟨r, hr, rfl⟩ := List.mem_map.mp (List.mem_of_find?_eq_some hfind)
    have hid := List.find?_some hfind
    rw [hp.entry r, decide_eq_true_eq] at hid
    rw [List.inj_on_of_nodup_map h.ids (mem_survivors.mp hr).1 (mem_survivors.mp hx).1 hid]

/-- The positions of a row once a gap is closed. -/
def Row.close (a : Span) (r : Row) : Row :=
  { r with lft := closeGap a r.lft, rgt := closeGap a r.rgt }

theorem update_close (a : Row) (t : Table) :
    update (fun r => r.lft > a.rgt) (fun r => { r with lft := r.lft - (a.rgt - a.lft + 1) })
      (update (fun r => r.rgt > a.rgt) (fun r => { r with rgt := r.rgt - (a.rgt - a.lft + 1) }) t) =
    t.map (Row.close a.span) := by
  unfold update
  rw [List.map_map]
  refine List.map_congr_left fun r _ => ?_
  unfold Row.close closeGap stmt Base.NestedSets.width
  simp only [Function.comp_apply, Row.span_lft, Row.span_rgt]
  by_cases hl : r.lft > a.rgt <;> by_cases hr : r.rgt > a.rgt <;>
    simp only [hl, hr, if_true, if_false]

/-- A row that is still there is cut out with its branch. -/
theorem Pruned.cut (hp : Pruned t done f) (h : WellFormed t) (hx : x ∈ survivors t done) :
    ∃ g, removeOne x.id ((survivors t done).map f) = (survivors t (x :: done)).map g ∧
      Pruned t (x :: done) g := by
  have hsub : ∀ r ∈ survivors t (x :: done), r ∈ survivors t done ∧ ¬Branch x.span r.span := by
    intro r hr
    obtain ⟨hrt, hall⟩ := mem_survivors.mp hr
    exact ⟨mem_survivors.mpr ⟨hrt, fun y hy => hall y (List.mem_cons_of_mem x hy)⟩,
      hall x List.mem_cons_self⟩
  have hcut : survivors t (x :: done) =
      (survivors t done).filter fun r => ¬Branch x.span r.span := by
    unfold survivors
    rw [List.filter_filter]
    refine List.filter_congr fun r _ => ?_
    simp only [List.forall_mem_cons, Bool.decide_and]
  have hfx := mem_spans (List.mem_map_of_mem (f := f) hx)
  have hfilter : ((survivors t done).map f).filter
      (fun r => ¬((f x).lft ≤ r.lft ∧ r.lft ≤ (f x).rgt)) = (survivors t (x :: done)).map f := by
    rw [hcut, List.filter_map]
    refine congrArg (List.map f) (List.filter_congr fun r hr => ?_)
    have hbr := hp.nested.branch_iff hfx (mem_spans (List.mem_map_of_mem (f := f) hr))
    rw [hp.branch_iff h hx hr] at hbr
    exact decide_eq_decide.mpr (not_congr hbr.symm)
  -- what is left lies outside the branch, so closing the gap keeps its order
  have hsubl : (spans ((survivors t (x :: done)).map f)).Sublist
      (spans ((survivors t done).map f)) := by
    rw [hcut]
    exact ((List.filter_sublist).map f).map Row.span
  have hout : ∀ y ∈ spans ((survivors t (x :: done)).map f), ¬Branch (f x).span y := by
    intro y hy
    obtain ⟨r', hr', rfl⟩ := List.mem_map.mp hy
    obtain ⟨r, hr, rfl⟩ := List.mem_map.mp hr'
    rw [hp.branch_iff h hx (hsub r hr).1]
    exact (hsub r hr).2
  have hspan : ∀ r, ((f r).close (f x).span).span = Span.map (closeGap (f x).span) (f r).span :=
    fun _ => rfl
  refine ⟨fun r => (f r).close (f x).span, ?_, ?_, ?_, ?_⟩
  · unfold removeOne
    rw [hp.find_left h hx]
    simp only
    rw [hfilter, update_close, List.map_map]
    rfl
  · intro r
    rw [hp.same r]
    rfl
  · have hnested := nested_closeGap hp.nested hfx hsubl hout
    unfold spans at hnested ⊢
    rw [List.map_map, List.map_map] at hnested
    rw [List.map_map]
    exact hnested
  · intro r hr s hs
    have hkeep := keepsOrder_closeGap hp.nested hfx (fun y hy => hsubl.subset hy) hout
    rw [hspan, hspan, hkeep.inside_iff (mem_spans (List.mem_map_of_mem hr))
      (mem_spans (List.mem_map_of_mem hs))]
    exact hp.inside r (hsub r hr).1 s (hsub s hs).1

/-- A row that is gone already changes nothing. -/
theorem Pruned.gone (hp : Pruned t done f) (h : WellFormed t) (hx : x ∈ t)
    (hgone : x ∉ survivors t done) :
    removeOne x.id ((survivors t done).map f) = (survivors t (x :: done)).map f ∧
      Pruned t (x :: done) f := by
  have hsame : survivors t (x :: done) = survivors t done := by
    unfold survivors
    refine List.filter_congr fun r _ => ?_
    simp only [List.forall_mem_cons, decide_eq_decide, and_iff_right_iff_imp]
    intro hall hbr
    refine hgone (mem_survivors.mpr ⟨hx, fun y hy hyx => hall y hy ?_⟩)
    exact hbr.trans hyx
  have hrun : removeOne x.id ((survivors t done).map f) = (survivors t done).map f := by
    unfold removeOne
    rw [hp.find_gone h hx hgone]
  refine ⟨by rw [hrun, hsame], hp.same, ?_, ?_⟩
  · rw [hsame]
    exact hp.nested
  · rw [hsame]
    exact hp.inside

theorem Pruned.step (hp : Pruned t done f) (h : WellFormed t) (hx : x ∈ t) :
    ∃ g, removeOne x.id ((survivors t done).map f) = (survivors t (x :: done)).map g ∧
      Pruned t (x :: done) g := by
  by_cases hleft : x ∈ survivors t done
  · exact hp.cut h hleft
  · exact ⟨f, hp.gone h hx hleft⟩

theorem Pruned.run (hp : Pruned t done f) (h : WellFormed t) {xs : List Row}
    (hxs : ∀ x ∈ xs, x ∈ t) :
    ∃ g, (xs.map fun r => r.id).foldl (fun t id => removeOne id t) ((survivors t done).map f) =
        (survivors t (xs.reverse ++ done)).map g ∧ Pruned t (xs.reverse ++ done) g := by
  induction xs generalizing done f with
  | nil => exact ⟨f, rfl, hp⟩
  | cons x xs ih =>
    obtain ⟨g, hrun, hp'⟩ := hp.step h (hxs x List.mem_cons_self)
    obtain ⟨g', hrun', hp''⟩ := ih hp' fun y hy => hxs y (List.mem_cons_of_mem x hy)
    refine ⟨g', ?_, ?_⟩
    · rw [List.map_cons, List.foldl_cons, hrun, hrun', List.reverse_cons, List.append_assoc]
      rfl
    · rw [List.reverse_cons, List.append_assoc]
      exact hp''

end Pruned

/-! ## What is removed -/

/-- The removal matches this row. -/
def Removal.Matches (removal : Removal) (m : Row) : Prop :=
  match removal with
  | .assoc sel => sel m = true
  | .other assocChar => assocChar m = true ∧ m.deleted = 0

/-- The row is in the interval of a matching one. -/
def Chosen (removal : Removal) (t : Table) (r : Row) : Prop :=
  ∃ m ∈ t, removal.Matches m ∧ Branch m.span r.span

/-- Created in the last day. -/
def Young (now : Int) (r : Row) : Prop := r.creationTime > now - deleteSecBack

/-- What a removal is for. -/
structure Removed (removal : Removal) (jobs : List Nat) (now : Int) (t t' : Table) : Prop where
  nested : Nested (spans t')
  removed : ∀ r ∈ t, Chosen removal t r → ∀ r' ∈ t', r'.id = r.id → r'.deleted = 1
  kept : ∀ r ∈ t, ¬Chosen removal t r → ∃ r' ∈ t', r' = { r with lft := r'.lft, rgt := r'.rgt }
  young : ∀ r ∈ t, (∀ r' ∈ t', r'.id ≠ r.id) → Young now r ∧ r.id ∉ jobs

section Chosen

variable {removal : Removal} {t : Table} {r : Row}

theorem between_iff (h : WellFormed t) {m : Row} (hm : m ∈ t) (hr : r ∈ t) :
    between m r = true ↔ Branch m.span r.span := by
  unfold between
  rw [decide_eq_true_eq]
  exact (h.nested.branch_iff (mem_spans hm) (mem_spans hr)).symm

theorem id_mem_iff (h : WellFormed t) {p : Row → Bool} (hr : r ∈ t) :
    r.id ∈ (t.filter p).map (fun r => r.id) ↔ p r = true := by
  constructor
  · intro hmem
    obtain ⟨s, hs, heq⟩ := List.mem_map.mp hmem
    obtain ⟨hst, hps⟩ := List.mem_filter.mp hs
    rw [← List.inj_on_of_nodup_map h.ids hst hr heq]
    exact hps
  · exact fun hp => List.mem_map_of_mem (List.mem_filter.mpr ⟨hr, hp⟩)

/-- The ids removed are those of the rows chosen, for other tables without the
rows flagged before. -/
theorem id_mem_locAssocChar (h : WellFormed t) (hr : r ∈ t) :
    r.id ∈ locAssocChar removal t ↔
      Chosen removal t r ∧ match removal with
        | .assoc _ => True
        | .other _ => r.deleted = 0 := by
  cases removal with
  | assoc sel =>
    unfold locAssocChar withinSelected
    rw [id_mem_iff h hr, List.any_eq_true]
    simp only [List.mem_filter, and_true]
    constructor
    · rintro ⟨m, ⟨hm, hsel⟩, hbr⟩
      exact ⟨m, hm, hsel, (between_iff h hm hr).mp hbr⟩
    · rintro ⟨m, hm, hsel, hbr⟩
      exact ⟨m, ⟨hm, hsel⟩, (between_iff h hm hr).mpr hbr⟩
  | other assocChar =>
    unfold locAssocChar
    rw [id_mem_iff h hr, List.any_eq_true]
    simp only [Bool.and_eq_true, decide_eq_true_eq]
    constructor
    · rintro ⟨m, hm, ⟨⟨hc, hbr⟩, hdel⟩, hmdel⟩
      exact ⟨⟨m, hm, ⟨hc, hmdel⟩, (between_iff h hm hr).mp hbr⟩, hdel⟩
    · rintro ⟨⟨m, hm, ⟨hc, hmdel⟩, hbr⟩, hdel⟩
      exact ⟨m, hm, ⟨⟨hc, (between_iff h hm hr).mpr hbr⟩, hdel⟩, hmdel⟩

theorem Chosen.id_mem_or (h : WellFormed t) (hr : r ∈ t) (hc : Chosen removal t r) :
    r.id ∈ locAssocChar removal t ∨ r.deleted = 1 := by
  by_cases hdel : r.deleted = 0
  · left
    rw [id_mem_locAssocChar h hr]
    refine ⟨hc, ?_⟩
    cases removal with
    | assoc _ => exact trivial
    | other _ => exact hdel
  · have := h.flags r hr
    right
    omega

/-- A removal that chooses something removes a row that matches. -/
theorem Chosen.ids_ne_nil (h : WellFormed t) (hc : Chosen removal t r) :
    locAssocChar removal t ≠ [] := by
  obtain ⟨m, hm, hmatch, -⟩ := hc
  refine List.ne_nil_of_mem (a := m.id) ((id_mem_locAssocChar h hm).mpr ?_)
  refine ⟨⟨m, hm, hmatch, Or.inl rfl⟩, ?_⟩
  cases removal with
  | assoc _ => exact trivial
  | other _ => exact hmatch.2

theorem Chosen.branch {x : Row} (hc : Chosen removal t x) (hbr : Branch x.span r.span) :
    Chosen removal t r := by
  obtain ⟨m, hm, hmatch, hmx⟩ := hc
  exact ⟨m, hm, hmatch, hbr.trans hmx⟩

/-- Without jobs under what is chosen, no row chosen has a job. -/
theorem Chosen.not_mem_jobs {jobs : List Nat} (h : WellFormed t) (hr : r ∈ t)
    (hc : Chosen removal t r) (hjobs : checkJobsBeforeRemove removal jobs t ≠ true) :
    r.id ∉ jobs := by
  intro hjob
  obtain ⟨m, hm, hmatch, hbr⟩ := hc
  have hbet := (between_iff h hm hr).mpr hbr
  apply hjobs
  cases removal with
  | assoc sel =>
    have hin : withinSelected sel t r = true :=
      List.any_eq_true.mpr ⟨m, List.mem_filter.mpr ⟨hm, hmatch⟩, hbet⟩
    refine List.any_eq_true.mpr ⟨r, hr, ?_⟩
    rw [hin, Bool.true_and]
    exact List.contains_iff_mem.mpr hjob
  | other assocChar =>
    refine List.any_eq_true.mpr ⟨m, hm, List.any_eq_true.mpr ⟨r, hr, ?_⟩⟩
    rw [hbet, hmatch.1, Bool.true_and, Bool.true_and]
    exact List.contains_iff_mem.mpr hjob

end Chosen

section Flag

variable {ids : List Nat} {now : Int} {r : Row}

@[simp] theorem flag_entry (ids : List Nat) (now : Int) (r : Row) :
    (flag ids now r).toEntry = r.toEntry := by
  unfold flag stmt
  split <;> rfl

@[simp] theorem flag_span (ids : List Nat) (now : Int) (r : Row) :
    (flag ids now r).span = r.span := by
  unfold flag stmt
  split <;> rfl

theorem flag_of_not_mem (h : r.id ∉ ids) : flag ids now r = r := if_neg h

theorem flag_deleted (h : r.id ∈ ids ∨ r.deleted = 1) : (flag ids now r).deleted = 1 := by
  unfold flag stmt
  split
  · rfl
  · exact h.resolve_left ‹_›

theorem spans_flag (t : Table) : spans (t.map (flag ids now)) = spans t := by
  unfold spans
  rw [List.map_map]
  exact List.map_congr_left fun r _ => flag_span ids now r

end Flag

section Remove

variable {removal : Removal} {jobs : List Nat} {now : Int} {t : Table} (h : WellFormed t)
include h

/-- Flagging what is chosen removes it without deleting anything. -/
theorem removed_flag : Removed removal jobs now t (t.map (flag (locAssocChar removal t) now)) := by
  refine ⟨?_, ?_, ?_, ?_⟩
  · rw [spans_flag]
    exact h.nested
  · intro r hr hc r' hr' hid
    obtain ⟨s, hs, rfl⟩ := List.mem_map.mp hr'
    rw [flag_entry] at hid
    rw [List.inj_on_of_nodup_map h.ids hs hr hid]
    exact flag_deleted (hc.id_mem_or h hr)
  · intro r hr hc
    have hid : r.id ∉ locAssocChar removal t :=
      fun hid => hc ((id_mem_locAssocChar h hr).mp hid).1
    refine ⟨_, List.mem_map_of_mem hr, ?_⟩
    rw [flag_of_not_mem hid]
  · intro r hr hgone
    exact absurd (by rw [flag_entry]) (hgone _ (List.mem_map_of_mem hr))

/-- The rows deleted are the branches of the young ones. -/
theorem removed_prune {ys : List Row} {g : Row → Row}
    (hys : ∀ y, y ∈ ys ↔ y ∈ t ∧ Young now y ∧ y.id ∈ locAssocChar removal t)
    (hp : Pruned t ys g) (hjobs : checkJobsBeforeRemove removal jobs t ≠ true) :
    Removed removal jobs now t
        (((survivors t ys).map g).map (flag (locAssocChar removal t) now)) ↔
      ∀ x ∈ t, x.id ∈ locAssocChar removal t → Young now x →
        ∀ r ∈ t, Inside r.span x.span → Young now r := by
  have hchosen : ∀ y ∈ ys, ∀ r, Branch y.span r.span → Chosen removal t r := by
    intro y hy r hbr
    obtain ⟨hyt, -, hid⟩ := (hys y).mp hy
    exact ((id_mem_locAssocChar h hyt).mp hid).1.branch hbr
  have hrow : ∀ r' ∈ ((survivors t ys).map g).map (flag (locAssocChar removal t) now),
      ∃ r ∈ survivors t ys, r' = flag (locAssocChar removal t) now (g r) ∧ r'.id = r.id := by
    intro r' hr'
    obtain ⟨s', hs', rfl⟩ := List.mem_map.mp hr'
    obtain ⟨r, hr, rfl⟩ := List.mem_map.mp hs'
    exact ⟨r, hr, rfl, by rw [flag_entry, hp.entry]⟩
  -- the rows that are gone are those of the branches cut
  have hgone : ∀ r ∈ t, (∀ r' ∈ ((survivors t ys).map g).map
      (flag (locAssocChar removal t) now), r'.id ≠ r.id) ↔ ∃ y ∈ ys, Branch y.span r.span := by
    intro r hr
    constructor
    · intro hnone
      by_contra hall
      have hleft : r ∈ survivors t ys :=
        mem_survivors.mpr ⟨hr, fun y hy hbr => hall ⟨y, hy, hbr⟩⟩
      refine hnone _ (List.mem_map_of_mem (List.mem_map_of_mem hleft)) ?_
      rw [flag_entry, hp.entry]
    · rintro ⟨y, hy, hbr⟩ r' hr' hid
      obtain ⟨s, hs, -, hid'⟩ := hrow r' hr'
      rw [List.inj_on_of_nodup_map h.ids (mem_survivors.mp hs).1 hr (hid'.symm.trans hid)] at hs
      exact (mem_survivors.mp hs).2 y hy hbr
  constructor
  · intro hrem x hx hid hyoung r hr hin
    refine (hrem.young r hr ((hgone r hr).mpr ⟨x, ?_, Or.inr hin⟩)).1
    exact (hys x).mpr ⟨hx, hyoung, hid⟩
  · intro hall
    refine ⟨?_, ?_, ?_, ?_⟩
    · rw [spans_flag]
      exact hp.nested
    · intro r hr hc r' hr' hid
      obtain ⟨s, hs, rfl, hid'⟩ := hrow r' hr'
      rw [List.inj_on_of_nodup_map h.ids (mem_survivors.mp hs).1 hr (hid'.symm.trans hid)]
      refine flag_deleted ((hc.id_mem_or h hr).imp ?_ ?_)
      · rw [hp.entry]
        exact fun hid => hid
      · rw [hp.same r]
        exact fun hdel => hdel
    · intro r hr hc
      have hleft : r ∈ survivors t ys :=
        mem_survivors.mpr ⟨hr, fun y hy hbr => hc (hchosen y hy r hbr)⟩
      have hid : (g r).id ∉ locAssocChar removal t := by
        rw [hp.entry]
        exact fun hid => hc ((id_mem_locAssocChar h hr).mp hid).1
      refine ⟨_, List.mem_map_of_mem (List.mem_map_of_mem hleft), ?_⟩
      rw [flag_of_not_mem hid]
      exact hp.same r
    · intro r hr hnone
      obtain ⟨y, hy, hbr⟩ := (hgone r hr).mp hnone
      obtain ⟨hyt, hyoung, hid⟩ := (hys y).mp hy
      refine ⟨?_, (hchosen y hy r hbr).not_mem_jobs h hr hjobs⟩
      obtain heq | hin := hbr
      · rw [h.span_inj hr hyt heq]
        exact hyoung
      · exact hall y hyt hid hyoung r hr hin

/-- A removal does what it is for exactly when a job keeps everything, or nothing
old is below a young association that is removed. -/
theorem removeCommon_removed_iff :
    Removed removal jobs now t (removeCommon removal jobs now t) ↔
      checkJobsBeforeRemove removal jobs t = true ∨
        ∀ x ∈ t, x.id ∈ locAssocChar removal t → Young now x →
          ∀ r ∈ t, Inside r.span x.span → Young now r := by
  unfold removeCommon
  simp only
  by_cases hnil : locAssocChar removal t = []
  · rw [if_pos hnil]
    refine iff_of_true ⟨h.nested, ?_, fun r hr _ => ⟨r, hr, rfl⟩, ?_⟩ (Or.inr ?_)
    · exact fun r hr hc => absurd hnil (hc.ids_ne_nil h)
    · exact fun r hr hgone => absurd rfl (hgone r hr)
    · intro x _ hid
      rw [hnil] at hid
      exact absurd hid List.not_mem_nil
  · rw [if_neg hnil]
    by_cases hjobs : checkJobsBeforeRemove removal jobs t = true
    · rw [if_pos hjobs]
      exact iff_of_true (removed_flag h) (Or.inl hjobs)
    · rw [if_neg hjobs]
      have hyt : ∀ y ∈ t.filter fun r => r.creationTime > now - deleteSecBack ∧
          r.id ∈ locAssocChar removal t, y ∈ t := fun y hy => (List.mem_filter.mp hy).1
      obtain ⟨g, hrun, hp⟩ := (Pruned.start h).run h hyt
      rw [List.append_nil] at hrun hp
      rw [survivors_nil, List.map_id'' fun _ => rfl] at hrun
      rw [hrun, or_iff_right hjobs]
      refine removed_prune h (fun y => ?_) hp hjobs
      rw [List.mem_reverse, List.mem_filter, decide_eq_true_eq]
      exact Iff.rfl

end Remove

/-- An account made today, with an older one that was moved below it. -/
def movedBelow : Table :=
  [{ id := 1, acct := "root", cluster := "tux", lft := 1, rgt := 6 },
    { id := 2, acct := "new", cluster := "tux", creationTime := 999990, parentAcct := "root",
      lft := 2, rgt := 5 },
    { id := 3, acct := "old", cluster := "tux", parentAcct := "new", lft := 3, rgt := 4 }]

theorem removed_iff_old :
    Removed (.assoc fun r => r.acct = "old") [] 1000000 movedBelow
        (removeCommon (.assoc fun r => r.acct = "old") [] 1000000 movedBelow) ↔
      checkJobsBeforeRemove (.assoc fun r => r.acct = "old") [] movedBelow = true ∨
        ∀ x ∈ movedBelow, x.id ∈ locAssocChar (.assoc fun r => r.acct = "old") movedBelow →
          Young 1000000 x → ∀ r ∈ movedBelow, Inside r.span x.span → Young 1000000 r :=
  removeCommon_removed_iff (by decide +kernel)

/-- The older account is deleted with the new one. -/
theorem not_removed_new :
    WellFormed movedBelow ∧
      ¬Removed (.assoc fun r => r.acct = "new") [] 1000000 movedBelow
        (removeCommon (.assoc fun r => r.acct = "new") [] 1000000 movedBelow) := by
  refine ⟨by decide +kernel, fun hr => ?_⟩
  have hyoung := (hr.young movedBelow[2] (by decide +kernel) (by decide +kernel)).1
  revert hyoung
  unfold Young
  decide +kernel

end Slurm.AssocTable
