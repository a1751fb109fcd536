import SlurmLite.AssocTable.Get

/-!
# Changed limits pushed to the cached associations

`acct_storage_p_modify_associations` sends the associations it changes to the
association managers, and with an account all users below that inherit the
change: `_modify_unset_users` goes down through the rows that leave a limit unset.

* **The change** (`Change`, `modifyLimits`): the columns that are set and the
  updates that are queued.
* **The manager** (`assocMgrUpdateAssocs`): the updates on the list it holds.
* **Who is reached** (`mem_modifyUnsetUsers`): the users below with the limit
  unset all the way.
* **Result** (`pushed_iff_reread`): the list is then the one that would be read
  again, unless a limit is cleared that an account further up still sets.
-/

namespace Slurm.AssocTable

open Base.NestedSets Base.CLib

/-! ## The change -/

abbrev NO_VAL : Nat := 0xfffffffe

/-- The values of a field are below this. -/
def PerJob.size : PerJob → Nat
  | .maxCpuMinsPj => 18446744073709551616
  | _ => 4294967296

/-- The limits of the `acct_association_rec_t` that holds the change. -/
structure Change where
  limits : PerJob → Nat
  fits : ∀ l, limits l < l.size

/-- What `_setup_association_limits` makes of a limit: an `int` is written, `INFINITE` is
`NULL`, the rest is passed over. -/
def column (x : Nat) : Option (Option Int) :=
  if int32 x ≥ 0 then some (some (int32 x))
  else if int32 x = -1 then some none
  else none

/-- A column after the change. -/
def Change.put (c : Change) (l : PerJob) (v : Option Int) : Option Int :=
  (column (c.limits l)).getD v

/-- The columns after the change. -/
def Change.set (c : Change) (r : Limits) : Limits :=
  { r with
    maxJobs := c.put .maxJobs r.maxJobs
    maxSubmitJobs := c.put .maxSubmitJobs r.maxSubmitJobs
    maxCpusPerJob := c.put .maxCpusPj r.maxCpusPerJob
    maxNodesPerJob := c.put .maxNodesPj r.maxNodesPerJob
    maxWallDurationPerJob := c.put .maxWallPj r.maxWallDurationPerJob
    maxCpuMinsPerJob := c.put .maxCpuMinsPj r.maxCpuMinsPerJob }

/-- `vals`. -/
def Change.vals (c : Change) : Option (Limits → Limits) :=
  if ∃ l, (column (c.limits l)).isSome then some c.set else none

/-- An association of the update list, with `NO_VAL` for what stays. -/
structure ModAssoc where
  id : Nat
  limits : PerJob → Nat

/-- The limits that a row takes over: those it leaves unset. -/
def unset (row : Row) (assoc : PerJob → Nat) (l : PerJob) : Nat :=
  if row.get l = none ∧ assoc l ≠ NO_VAL then assoc l else NO_VAL

/-- The sub accounts and the users of an account. -/
def subRows (acct : String) (lft rgt : Int) (t : Table) : List Row :=
  orderByLft (t.filter fun r => r.deleted = 0 ∧ (lft ≤ r.lft ∧ r.lft ≤ rgt) ∧
    (r.user = "" ∧ r.parentAcct = acct ∨ r.user ≠ "" ∧ r.acct = acct))

/-- `_modify_unset_users`: the associations in the order they are queued; `none` when the recursion
is deeper than `fuel`. -/
def modifyUnsetUsers (t : Table) : Nat → (PerJob → Nat) → String → Int → Int →
    Option (List ModAssoc)
  | 0, _, _, _, _ => none
  | fuel + 1, assoc, acct, lft, rgt =>
    ((subRows acct lft rgt t).mapM fun row =>
      let modAssoc := unset row assoc
      if ∃ l, modAssoc l ≠ NO_VAL then
        if row.user = "" then modifyUnsetUsers t fuel modAssoc row.acct row.lft row.rgt
        else some [⟨row.id, modAssoc⟩]
      else some []).map List.flatten

/-- The associations that one row of the loop queues. -/
def queued (fuel : Nat) (t : Table) (c : Change) (row : Row) : Option (List ModAssoc) :=
  if row.partition ≠ "" ∨ row.user ≠ "" then some [⟨row.id, c.limits⟩]
  else (modifyUnsetUsers t fuel c.limits row.acct row.lft row.rgt).map (⟨row.id, c.limits⟩ :: ·)

/-- `acct_storage_p_modify_associations` with a change of limits and no new parent: the table, and
the update list, to which each association is prepended. -/
def modifyLimits (fuel : Nat) (sel : Row → Bool) (c : Change) (mayModify : Row → Bool) (now : Int)
    (t : Table) : Option (Table × List ModAssoc) := do
  let set ← c.vals
  let t' ← modifyAssociations sel none (some set) mayModify now t
  let updates ← (fetched sel t).mapM (queued fuel t c)
  pure (t', updates.flatten.reverse)

/-! ## The association manager -/

/-- The fields that an update of the limits sets. -/
def AssocRec.modify (object : ModAssoc) (rec : AssocRec) : AssocRec :=
  { rec with limits := fun l => if object.limits l ≠ NO_VAL then object.limits l else rec.limits l }

/-- An object is applied to the first record with its id, which is not 0 as ids are counted
from 1. -/
def updateRec (object : ModAssoc) : List AssocRec → List AssocRec
  | [] => []
  | rec :: recs =>
    if object.id = rec.id then rec.modify object :: recs else rec :: updateRec object recs

/-- `assoc_mgr_update_assocs` with `ACCT_MODIFY_ASSOC`. -/
def assocMgrUpdateAssocs (objects : List ModAssoc) (recs : List AssocRec) : List AssocRec :=
  objects.foldl (fun recs object => updateRec object recs) recs

/-! ## Who is reached -/

/-- Trees of live rows, where only accounts name a parent and only users a partition. -/
structure LiveTree (t : Table) : Prop extends Tree t where
  users : ∀ r ∈ t, r.user ≠ "" → r.parentAcct = ""
  accts : ∀ r ∈ t, r.user = "" → r.partition = ""
  live : ∀ r ∈ t, r.deleted = 0 → ∀ q ∈ ancestors t r, q.deleted = 0

/-- The way up from a row, itself included. -/
def line (t : Table) (r : Row) : List Row := r :: ancestors t r

section Lines

variable {t : Table} {r s x q : Row} {below : List Row}

theorem Tree.line_cons (h : Tree t) (hr : r ∈ t) (htop : ¬r.isTop) :
    ∃ p ∈ t, p.user = "" ∧ p.acct = r.parentName ∧ p.cluster = r.cluster ∧
      line t r = r :: line t p := by
  obtain ⟨p, hp, hpu, hacct, hcluster, hcons⟩ := h.parent hr htop
  exact ⟨p, hp, hpu, hacct, hcluster, congrArg (r :: ·) hcons⟩

theorem mem_line (hr : r ∈ t) : ∀ q ∈ line t r, q ∈ t :=
  List.forall_mem_cons.mpr ⟨hr, fun _ hq => (mem_ancestors.mp hq).1⟩

/-- Every row on the way up has the rest of the way above it. -/
theorem line_split (h : Tree t) :
    ∀ {below : List Row} {r : Row}, r ∈ t → ∀ {s : Row} {rest : List Row},
    line t r = below ++ s :: rest → s :: rest = line t s := by
  intro below
  induction below with
  | nil =>
    intro r hr s rest hsplit
    obtain ⟨rfl, hrest⟩ := List.cons.inj hsplit
    rw [← hrest]
    rfl
  | cons x below ih =>
    intro r hr s rest hsplit
    by_cases htop : r.isTop
    · have hline : line t r = [r] := by
        unfold line
        rw [ancestors_root h.toWellFormed (h.tops r hr htop)]
      rw [hline] at hsplit
      simp at hsplit
    · obtain ⟨p, hp, -, -, -, hcons⟩ := h.line_cons hr htop
      rw [hcons] at hsplit
      exact ih hp (List.cons.inj hsplit).2

/-- The rows of the query are those directly below the account. -/
theorem mem_subRows (h : LiveTree t) (hs : s ∈ t) (hsu : s.user = "") :
    x ∈ subRows s.acct s.lft s.rgt t ↔ x ∈ t ∧ x.deleted = 0 ∧ line t x = x :: line t s := by
  unfold subRows orderByLft
  rw [List.mem_insertionSort, List.mem_filter, decide_eq_true_eq]
  constructor
  · rintro ⟨hx, hlive, hin, hname⟩
    have hsa : s.acct ≠ "" := h.named s hs
    have hparent : ¬x.isTop ∧ x.parentName = s.acct := by
      obtain ⟨hu, hp⟩ | ⟨hu, hp⟩ := hname
      · refine ⟨fun htop => hsa (hp.symm.trans htop.2), ?_⟩
        rw [← hp]
        exact if_neg fun hc => hc.1 hu
      · refine ⟨fun htop => hu htop.1, ?_⟩
        rw [← hp]
        exact if_pos ⟨hu, h.users x hx hu⟩
    obtain ⟨p, hp, hpu, hpa, hpc, hcons⟩ := h.line_cons hx hparent.1
    have hcluster : x.cluster = s.cluster := by
      obtain heq | hxs := (h.nested.branch_iff (mem_spans hs) (mem_spans hx)).mpr hin
      · rw [h.span_inj hx hs heq]
      · exact h.clusters x hx s hs hxs
    obtain rfl := h.account_eq hp hs hpu hsu (hpa.trans hparent.2) (hpc.trans hcluster)
    exact ⟨hx, hlive, hcons⟩
  · rintro ⟨hx, hlive, hline⟩
    have htop : ¬x.isTop := by
      intro htop
      have hnil := ancestors_root h.toWellFormed (h.tops x hx htop)
      unfold line at hline
      rw [hnil] at hline
      simp at hline
    obtain ⟨p, hp, hpu, hpa, -, hcons⟩ := h.line_cons hx htop
    rw [hline] at hcons
    obtain rfl : s = p := (List.cons.inj (List.cons.inj hcons).2).1
    have hmem : s ∈ ancestors t x := by
      have := (List.cons.inj hline).2
      rw [this]
      exact List.mem_cons_self
    have hin := (h.nested.branch_iff (mem_spans hs) (mem_spans hx)).mp
      (Or.inr (mem_ancestors.mp hmem).2)
    refine ⟨hx, hlive, hin, ?_⟩
    by_cases hu : x.user = ""
    · exact Or.inl ⟨hu, (hpa.trans (if_neg fun hc => hc.1 hu)).symm⟩
    · exact Or.inr ⟨hu, (hpa.trans (if_pos ⟨hu, h.users x hx hu⟩)).symm⟩

end Lines

theorem mapM_flatten {α β : Type} {f : α → Option (List β)} {P : α → β → Prop} {xs : List α}
    (h : ∀ x ∈ xs, ∃ out, f x = some out ∧ ∀ e, e ∈ out ↔ P x e) :
    ∃ outs, xs.mapM f = some outs ∧ ∀ e, e ∈ outs.flatten ↔ ∃ x ∈ xs, P x e := by
  induction xs with
  | nil => exact ⟨[], rfl, fun e => iff_of_false List.not_mem_nil fun ⟨x, hx, _⟩ => by cases hx⟩
  | cons x xs ih =>
    obtain ⟨out, hout, hmem⟩ := h x List.mem_cons_self
    obtain ⟨outs, houts, hmems⟩ := ih fun y hy => h y (List.mem_cons_of_mem _ hy)
    refine ⟨out :: outs, ?_, fun e => ?_⟩
    · rw [List.mapM_cons, hout, houts]
      rfl
    · rw [List.flatten_cons, List.mem_append, hmem, hmems]
      constructor
      · rintro (he | ⟨y, hy, he⟩)
        · exact ⟨x, List.mem_cons_self, he⟩
        · exact ⟨y, List.mem_cons_of_mem _ hy, he⟩
      · rintro ⟨y, hy, he⟩
        obtain rfl | hy := List.mem_cons.mp hy
        · exact Or.inl he
        · exact Or.inr ⟨y, hy, he⟩

/-- The limits that get through some rows: those that all of them leave unset. -/
def mask (below : List Row) (assoc : PerJob → Nat) (l : PerJob) : Nat :=
  if (∀ q ∈ below, q.get l = none) ∧ assoc l ≠ NO_VAL then assoc l else NO_VAL

/-- A user below some rows is told of the limits that get through them. -/
structure Told (t : Table) (assoc : PerJob → Nat) (above : List Row) (below : List Row) (u : Row)
    (e : ModAssoc) : Prop where
  mem : u ∈ t
  user : u.user ≠ ""
  live : ∀ q ∈ below, q.deleted = 0
  line : line t u = below ++ above
  eq : e = ⟨u.id, mask below assoc⟩
  some : ∃ l, mask below assoc l ≠ NO_VAL

section Reached

variable {t : Table} {s x u : Row} {below above : List Row} {assoc : PerJob → Nat} {e : ModAssoc}

theorem mask_nil (assoc : PerJob → Nat) (l : PerJob) : mask [] assoc l = assoc l := by
  unfold mask
  by_cases hno : assoc l = NO_VAL
  · rw [if_neg fun hc => hc.2 hno, hno]
  · exact if_pos ⟨fun q hq => absurd hq List.not_mem_nil, hno⟩

theorem mask_concat (below : List Row) (x : Row) (assoc : PerJob → Nat) :
    mask (below ++ [x]) assoc = mask below (unset x assoc) := by
  funext l
  unfold mask unset
  by_cases hx : x.get l = none ∧ assoc l ≠ NO_VAL
  · rw [if_pos hx]
    have hiff : ((∀ q ∈ below ++ [x], q.get l = none) ∧ assoc l ≠ NO_VAL) ↔
        (∀ q ∈ below, q.get l = none) ∧ assoc l ≠ NO_VAL := by
      rw [List.forall_mem_append, List.forall_mem_singleton, and_iff_left hx.1]
    rw [if_congr hiff rfl rfl]
  · rw [if_neg hx, if_neg, if_neg fun hc => hc.2 rfl]
    rw [List.forall_mem_append, List.forall_mem_singleton]
    exact fun hc => hx ⟨hc.1.2, hc.2⟩

theorem told_concat : Told t assoc above (below ++ [x]) u e ↔
    x.deleted = 0 ∧ Told t (unset x assoc) (x :: above) below u e := by
  constructor
  · intro h
    refine ⟨h.live x (List.mem_append_right _ List.mem_cons_self), h.mem, h.user,
      fun q hq => h.live q (List.mem_append_left _ hq), ?_, ?_, ?_⟩
    · rw [h.line, List.append_assoc, List.singleton_append]
    · rw [h.eq, mask_concat]
    · rw [← mask_concat]
      exact h.some
  · rintro ⟨hx, h⟩
    refine ⟨h.mem, h.user, ?_, ?_, ?_, ?_⟩
    · rw [List.forall_mem_append, List.forall_mem_singleton]
      exact ⟨h.live, hx⟩
    · rw [h.line, List.append_assoc, List.singleton_append]
    · rw [h.eq, mask_concat]
    · rw [mask_concat]
      exact h.some

/-- Below a user there is nobody. -/
theorem told_user (h : LiveTree t) (hx : x ∈ t) (hxu : x.user ≠ "") :
    (∃ u below, Told t assoc (line t x) below u e) ↔
      e = ⟨x.id, assoc⟩ ∧ ∃ l, assoc l ≠ NO_VAL := by
  have hmask : mask [] assoc = assoc := funext (mask_nil assoc)
  constructor
  · rintro ⟨u, below, htold⟩
    cases below with
    | nil =>
      obtain rfl : u = x := (List.cons.inj htold.line).1
      exact ⟨htold.eq.trans (by rw [hmask]), by rw [← hmask]; exact htold.some⟩
    | cons y below =>
      obtain ⟨-, hanc⟩ := List.cons.inj htold.line
      have hmem : x ∈ ancestors t u := by
        rw [hanc]
        exact List.mem_append_right _ List.mem_cons_self
      exact absurd (h.carriers u htold.mem x hx (mem_ancestors.mp hmem).2) hxu
  · rintro ⟨heq, hsome⟩
    refine ⟨x, [], hx, hxu, fun q hq => absurd hq List.not_mem_nil, rfl, ?_, ?_⟩
    · rw [hmask]
      exact heq
    · rw [hmask]
      exact hsome

/-- The recursion ends, and tells the users below the account. -/
theorem mem_modifyUnsetUsers (h : LiveTree t) :
    ∀ {fuel : Nat} {s : Row} {assoc : PerJob → Nat}, s ∈ t → s.user = "" →
      t.length ≤ fuel + (ancestors t s).length →
        ∃ out, modifyUnsetUsers t fuel assoc s.acct s.lft s.rgt = some out ∧
          ∀ e, e ∈ out ↔ ∃ u below, Told t assoc (line t s) below u e := by
  intro fuel
  induction fuel with
  | zero =>
    intro s assoc hs _ hfuel
    have := length_ancestors_lt hs
    omega
  | succ fuel ih =>
    intro s assoc hs hsu hfuel
    -- what each row of the query adds
    have hrow : ∀ x ∈ subRows s.acct s.lft s.rgt t, ∃ out,
        (if ∃ l, unset x assoc l ≠ NO_VAL then
          if x.user = "" then modifyUnsetUsers t fuel (unset x assoc) x.acct x.lft x.rgt
          else some [⟨x.id, unset x assoc⟩]
        else some []) = some out ∧
        ∀ e, e ∈ out ↔ ∃ u below, Told t (unset x assoc) (line t x) below u e := by
      intro x hx
      obtain ⟨hxt, -, hline⟩ := (mem_subRows h hs hsu).mp hx
      by_cases hmod : ∃ l, unset x assoc l ≠ NO_VAL
      · rw [if_pos hmod]
        by_cases hxu : x.user = ""
        · rw [if_pos hxu]
          have hlen : (ancestors t x).length = (ancestors t s).length + 1 :=
            congrArg List.length (List.cons.inj hline).2
          exact ih hxt hxu (by omega)
        · rw [if_neg hxu]
          refine ⟨_, rfl, fun e => ?_⟩
          rw [List.mem_singleton, told_user h hxt hxu]
          exact (and_iff_left hmod).symm
      · rw [if_neg hmod]
        refine ⟨[], rfl, fun e => iff_of_false List.not_mem_nil ?_⟩
        rintro ⟨u, below, htold⟩
        obtain ⟨l, hl⟩ := htold.some
        unfold mask at hl
        split at hl
        · rename_i hc
          exact hmod ⟨l, hc.2⟩
        · exact hl rfl
    obtain ⟨outs, houts, hmem⟩ := mapM_flatten hrow
    refine ⟨outs.flatten, ?_, fun e => ?_⟩
    · rw [modifyUnsetUsers]
      exact congrArg (Option.map List.flatten) houts
    · rw [hmem]
      constructor
      · rintro ⟨x, hx, u, below, htold⟩
        obtain ⟨-, hlive, hline⟩ := (mem_subRows h hs hsu).mp hx
        rw [hline] at htold
        exact ⟨u, below ++ [x], told_concat.mpr ⟨hlive, htold⟩⟩
      · rintro ⟨u, below, htold⟩
        obtain rfl | ⟨below, x, rfl⟩ := List.eq_nil_or_concat below
        · obtain rfl : u = s := (List.cons.inj htold.line).1
          exact absurd hsu htold.user
        · rw [List.concat_eq_append] at htold
          obtain ⟨hlive, htold⟩ := told_concat.mp htold
          have hx : x :: line t s = line t x := line_split h.toTree htold.mem htold.line
          have hxt : x ∈ t := by
            refine mem_line htold.mem x ?_
            rw [htold.line]
            exact List.mem_append_right _ List.mem_cons_self
          rw [hx] at htold
          exact ⟨x, (mem_subRows h hs hsu).mpr ⟨hxt, hlive, hx.symm⟩, u, below, htold⟩

end Reached

/-! ## The updates -/

/-- A user takes a limit over from a selected association: the rows below that one leave it
unset. -/
def Pushed (t : Table) (sel : Row → Bool) (u : Row) (l : PerJob) : Prop :=
  ∃ below s above, line t u = below ++ s :: above ∧ sel s = true ∧ ∀ q ∈ below, q.get l = none

section Updates

variable {t : Table} {sel : Row → Bool} {c : Change} {fuel : Nat} {u s : Row} {l : PerJob}

theorem mem_fetched' : s ∈ fetched sel t ↔ s ∈ t ∧ sel s = true := by
  unfold fetched orderByLft
  rw [List.mem_insertionSort, List.mem_filter]

/-- The update list is complete: the selected associations and those told of them. -/
theorem queued_spec (h : LiveTree t) (hfuel : t.length ≤ fuel) :
    ∃ updates, (fetched sel t).mapM (queued fuel t c) = some updates ∧
      ∀ e, e ∈ updates.flatten ↔ ∃ s ∈ fetched sel t, e = ⟨s.id, c.limits⟩ ∨
        s.user = "" ∧ ∃ u below, Told t c.limits (line t s) below u e := by
  refine mapM_flatten fun s hs => ?_
  obtain ⟨hst, -⟩ := mem_fetched'.mp hs
  unfold queued
  by_cases hsu : s.user = ""
  · obtain ⟨out, hout, hmem⟩ := @mem_modifyUnsetUsers t h fuel s c.limits hst hsu (by omega)
    rw [if_neg fun hc => hc.elim (fun hp => hp (h.accts s hst hsu)) fun hu => hu hsu, hout]
    refine ⟨_, rfl, fun e => ?_⟩
    rw [List.mem_cons, hmem, and_iff_right hsu]
  · rw [if_pos (Or.inr hsu)]
    refine ⟨_, rfl, fun e => ?_⟩
    rw [List.mem_singleton]
    exact (or_iff_left fun hc => hsu hc.1).symm

/-- What the update list says about a limit of a user. -/
theorem updates_spec (h : LiveTree t) {updates : List ModAssoc} (hu : u ∈ t) (huser : u.user ≠ "")
    (hlive : u.deleted = 0)
    (hmem : ∀ e, e ∈ updates ↔ ∃ s ∈ fetched sel t, e = ⟨s.id, c.limits⟩ ∨
      s.user = "" ∧ ∃ u below, Told t c.limits (line t s) below u e) (l : PerJob) :
    (∀ e ∈ updates, e.limits l = c.limits l ∨ e.limits l = NO_VAL) ∧
      ((∃ e ∈ updates, e.id = u.id ∧ e.limits l ≠ NO_VAL) ↔
        c.limits l ≠ NO_VAL ∧ Pushed t sel u l) := by
  constructor
  · intro e he
    obtain ⟨s, -, rfl | ⟨-, u', below, htold⟩⟩ := (hmem e).mp he
    · exact Or.inl rfl
    · rw [htold.eq]
      show mask below c.limits l = _ ∨ mask below c.limits l = _
      unfold mask
      split
      · exact Or.inl rfl
      · exact Or.inr rfl
  constructor
  · rintro ⟨e, he, hid, hset⟩
    obtain ⟨s, hs, rfl | ⟨hsu, u', below, htold⟩⟩ := (hmem e).mp he
    · obtain ⟨hst, hsel⟩ := mem_fetched'.mp hs
      obtain rfl := List.inj_on_of_nodup_map h.ids hst hu hid
      exact ⟨hset, [], s, ancestors t s, rfl, hsel, fun q hq => absurd hq List.not_mem_nil⟩
    · rw [htold.eq] at hid hset
      obtain rfl := List.inj_on_of_nodup_map h.ids htold.mem hu hid
      have hset' : mask below c.limits l ≠ NO_VAL := hset
      unfold mask at hset'
      split at hset'
      · rename_i hc
        exact ⟨hc.2, below, s, ancestors t s, htold.line, (mem_fetched'.mp hs).2, hc.1⟩
      · exact absurd rfl hset'
  · rintro ⟨hno, below, s, above, hline, hsel, hunset⟩
    -- the selected row is told to the users below, if not to itself
    have hst : s ∈ t := by
      refine mem_line hu s ?_
      rw [hline]
      exact List.mem_append_right _ List.mem_cons_self
    have hs : s ∈ fetched sel t := mem_fetched'.mpr ⟨hst, hsel⟩
    cases below with
    | nil =>
      obtain ⟨rfl, -⟩ := List.cons.inj hline
      exact ⟨⟨u.id, c.limits⟩, (hmem _).mpr ⟨u, hs, Or.inl rfl⟩, rfl, hno⟩
    | cons x below =>
      obtain ⟨rfl, hanc⟩ := List.cons.inj hline
      have hsanc : s ∈ ancestors t u := by
        rw [hanc]
        exact List.mem_append_right _ List.mem_cons_self
      have hsu : s.user = "" := h.carriers u hu s hst (mem_ancestors.mp hsanc).2
      have hset : mask (u :: below) c.limits l ≠ NO_VAL := by
        unfold mask
        rw [if_pos ⟨hunset, hno⟩]
        exact hno
      refine ⟨⟨u.id, mask (u :: below) c.limits⟩, (hmem _).mpr ⟨s, hs, Or.inr ⟨hsu, u, u :: below,
        hu, huser, ?_, ?_, rfl, l, hset⟩⟩, rfl, hset⟩
      · refine List.forall_mem_cons.mpr ⟨hlive, fun q hq => h.live u hu hlive q ?_⟩
        rw [hanc]
        exact List.mem_append_left _ hq
      · rw [← line_split h.toTree hu hline]
        exact hline

end Updates

/-! ## The manager -/

section Manager

variable {objects : List ModAssoc} {recs : List AssocRec} {rec : AssocRec} {l : PerJob} {x : Nat}

/-- An object on one record. -/
def touch (rec : AssocRec) (object : ModAssoc) : AssocRec :=
  if object.id = rec.id then rec.modify object else rec

theorem touch_id (rec : AssocRec) (object : ModAssoc) : (touch rec object).id = rec.id := by
  unfold touch
  split <;> rfl

theorem touch_user (rec : AssocRec) (object : ModAssoc) : (touch rec object).user = rec.user := by
  unfold touch
  split <;> rfl

theorem updateRec_eq_map (object : ModAssoc) (h : (recs.map AssocRec.id).Nodup) :
    updateRec object recs = recs.map fun rec => touch rec object := by
  induction recs with
  | nil => rfl
  | cons rec recs ih =>
    rw [List.map_cons, List.nodup_cons] at h
    rw [updateRec, List.map_cons]
    unfold touch
    by_cases hid : object.id = rec.id
    · rw [if_pos hid, if_pos hid]
      congr 1
      refine (List.map_id' recs).symm.trans (List.map_congr_left fun rec' hrec' => ?_)
      refine (if_neg fun heq => h.1 ?_).symm
      rw [← hid, heq]
      exact List.mem_map_of_mem hrec'
    · rw [if_neg hid, if_neg hid, ih h.2]
      rfl

theorem assocMgrUpdateAssocs_eq_map (h : (recs.map AssocRec.id).Nodup) :
    assocMgrUpdateAssocs objects recs = recs.map fun rec => objects.foldl touch rec := by
  induction objects generalizing recs with
  | nil => exact (List.map_id' recs).symm
  | cons object objects ih =>
    have hids : (recs.map fun rec => touch rec object).map AssocRec.id = recs.map AssocRec.id := by
      rw [List.map_map]
      exact List.map_congr_left fun rec _ => touch_id rec object
    unfold assocMgrUpdateAssocs at ih ⊢
    rw [List.foldl_cons, updateRec_eq_map object h, ih (hids ▸ h), List.map_map]
    rfl

theorem foldl_touch_id (objects : List ModAssoc) (rec : AssocRec) :
    (objects.foldl touch rec).id = rec.id ∧ (objects.foldl touch rec).user = rec.user := by
  induction objects generalizing rec with
  | nil => exact ⟨rfl, rfl⟩
  | cons object objects ih =>
    rw [List.foldl_cons, (ih _).1, (ih _).2]
    exact ⟨touch_id rec object, touch_user rec object⟩

/-- The limit of a record when all objects that set it say the same. -/
theorem foldl_touch_limits (h : ∀ e ∈ objects, e.limits l = x ∨ e.limits l = NO_VAL) :
    (objects.foldl touch rec).limits l =
      if ∃ e ∈ objects, e.id = rec.id ∧ e.limits l ≠ NO_VAL then x else rec.limits l := by
  induction objects generalizing rec with
  | nil => rw [if_neg fun ⟨e, he, _⟩ => absurd he List.not_mem_nil]; rfl
  | cons object objects ih =>
    rw [List.foldl_cons, ih fun e he => h e (List.mem_cons_of_mem _ he), touch_id]
    by_cases hrest : ∃ e ∈ objects, e.id = rec.id ∧ e.limits l ≠ NO_VAL
    · obtain ⟨e, he, hset⟩ := hrest
      rw [if_pos ⟨e, he, hset⟩, if_pos ⟨e, List.mem_cons_of_mem _ he, hset⟩]
    · rw [if_neg hrest]
      by_cases hobj : object.id = rec.id ∧ object.limits l ≠ NO_VAL
      · rw [if_pos ⟨object, List.mem_cons_self, hobj⟩]
        unfold touch
        rw [if_pos hobj.1]
        show (if object.limits l ≠ NO_VAL then object.limits l else rec.limits l) = x
        rw [if_pos hobj.2]
        exact (h object List.mem_cons_self).resolve_right hobj.2
      · rw [if_neg]
        · unfold touch
          split
          · rename_i hid
            show (if object.limits l ≠ NO_VAL then object.limits l else rec.limits l) = _
            exact if_neg fun hset => hobj ⟨hid, hset⟩
          · rfl
        · rintro ⟨e, he, hset⟩
          obtain rfl | he := List.mem_cons.mp he
          · exact hobj hset
          · exact hrest ⟨e, he, hset⟩

end Manager

/-! ## The limits on a way up -/

/-- The limit that is read for an association from its own column and those above. -/
def lineValue (l : PerJob) (f : Row → Option Int) : List Row → Nat
  | [] => INFINITE
  | u :: above =>
    match f u with
    | some v => l.atoi v
    | none =>
      match above.findSome? f with
      | some v => l.parent v
      | none => INFINITE

section Values

variable {l : PerJob} {f g : Row → Option Int} {sel : Row → Bool} {path : List Row} {v : Int}
variable {w : Option Int} {x : Nat}

/-- A selected row comes before any with a limit. -/
def Reached (sel : Row → Bool) (f : Row → Option Int) (path : List Row) : Prop :=
  ∃ below s above, path = below ++ s :: above ∧ sel s = true ∧ ∀ q ∈ below, f q = none

theorem reached_cons (q : Row) (path : List Row) :
    Reached sel f (q :: path) ↔ sel q = true ∨ f q = none ∧ Reached sel f path := by
  constructor
  · rintro ⟨below, s, above, hpath, hsel, hunset⟩
    cases below with
    | nil =>
      obtain ⟨rfl, -⟩ := List.cons.inj hpath
      exact Or.inl hsel
    | cons y below =>
      obtain ⟨rfl, hrest⟩ := List.cons.inj hpath
      obtain ⟨hq, hbelow⟩ := List.forall_mem_cons.mp hunset
      exact Or.inr ⟨hq, below, s, above, hrest, hsel, hbelow⟩
  · rintro (hsel | ⟨hq, below, s, above, rfl, hsel, hunset⟩)
    · exact ⟨[], q, path, rfl, hsel, fun y hy => absurd hy List.not_mem_nil⟩
    · exact ⟨q :: below, s, above, rfl, hsel, List.forall_mem_cons.mpr ⟨hq, hunset⟩⟩

/-- What is not reached is not changed. -/
theorem findSome?_of_not_reached (hg : ∀ q ∈ path, sel q = false → g q = f q)
    (hno : ¬Reached sel f path) : path.findSome? g = path.findSome? f := by
  induction path with
  | nil => rfl
  | cons q path ih =>
    obtain ⟨hq, hpath⟩ := List.forall_mem_cons.mp hg
    rw [reached_cons, not_or, Bool.not_eq_true] at hno
    rw [List.findSome?_cons, List.findSome?_cons, hq hno.1]
    cases hf : f q with
    | some v => rfl
    | none => exact ih hpath fun hr => hno.2 ⟨hf, hr⟩

theorem lineValue_of_not_reached (hg : ∀ q ∈ path, sel q = false → g q = f q)
    (hno : ¬Reached sel f path) : lineValue l g path = lineValue l f path := by
  cases path with
  | nil => rfl
  | cons u path =>
    obtain ⟨hu, hpath⟩ := List.forall_mem_cons.mp hg
    rw [reached_cons, not_or, Bool.not_eq_true] at hno
    rw [lineValue, lineValue, hu hno.1]
    cases hf : f u with
    | some v => rfl
    | none => rw [findSome?_of_not_reached hpath fun hr => hno.2 ⟨hf, hr⟩]

/-- A value that is set is found where it reaches. -/
theorem findSome?_of_reached (hsel : ∀ q ∈ path, sel q = true → g q = some v)
    (hg : ∀ q ∈ path, sel q = false → g q = f q) (hr : Reached sel f path) :
    path.findSome? g = some v := by
  induction path with
  | nil =>
    obtain ⟨below, s, above, hnil, -⟩ := hr
    simp at hnil
  | cons q path ih =>
    obtain ⟨hq, hpath⟩ := List.forall_mem_cons.mp hg
    obtain ⟨hqs, hpaths⟩ := List.forall_mem_cons.mp hsel
    rw [List.findSome?_cons]
    cases hs : sel q with
    | true => rw [hqs hs]
    | false =>
      rw [reached_cons, hs, or_iff_right Bool.false_ne_true] at hr
      rw [hq hs, hr.1]
      exact ih hpaths hpath hr.2

theorem atoi_fits (h : l.Fits v) : l.atoi v = (v % 4294967296).toNat := by
  obtain ⟨hpos, hlow, hbound⟩ := h
  have hint : int32 v = v % 4294967296 := by
    unfold int32
    rw [Int.bmod_def]
    split <;> omega
  cases l with
  | maxCpuMinsPj =>
    show (int32 v % 18446744073709551616).toNat = _
    rw [hint]
    omega
  | _ =>
    show (int32 v % 4294967296).toNat = _
    rw [hint]
    omega

theorem lineValue_of_reached (hfits : l.Fits v) (hv : v < 2147483648)
    (hsel : ∀ q ∈ path, sel q = true → g q = some v)
    (hg : ∀ q ∈ path, sel q = false → g q = f q) (hr : Reached sel f path) :
    lineValue l g path = v.toNat := by
  cases path with
  | nil =>
    obtain ⟨below, s, above, hnil, -⟩ := hr
    simp at hnil
  | cons u path =>
    obtain ⟨hu, hpath⟩ := List.forall_mem_cons.mp hg
    obtain ⟨hus, hpaths⟩ := List.forall_mem_cons.mp hsel
    have hpos := hfits.1
    rw [lineValue]
    cases hs : sel u with
    | true =>
      rw [hus hs]
      show l.atoi v = v.toNat
      rw [atoi_fits hfits]
      omega
    | false =>
      rw [reached_cons, hs, or_iff_right Bool.false_ne_true] at hr
      rw [hu hs, hr.1, findSome?_of_reached hpaths hpath hr.2]
      show l.parent v = v.toNat
      rw [parent_eq, (field_eq hfits).1]

/-- What is read from columns is `INFINITE` or has a lower half that is an `int`. -/
theorem lineValue_low (hfits : ∀ q ∈ path, ∀ v, f q = some v → l.Fits v) :
    (lineValue l f path = INFINITE ↔ ∀ q ∈ path, f q = none) ∧
      (lineValue l f path ≠ INFINITE → lineValue l f path % 4294967296 < 2147483648) := by
  cases path with
  | nil => exact ⟨iff_of_true rfl fun q hq => absurd hq List.not_mem_nil, fun h => absurd rfl h⟩
  | cons u path =>
    obtain ⟨hu, hpath⟩ := List.forall_mem_cons.mp hfits
    rw [lineValue, List.forall_mem_cons]
    cases hf : f u with
    | some v =>
      obtain ⟨hpos, hlow, -⟩ := hu v hf
      have hval : l.atoi v = (v % 4294967296).toNat := atoi_fits (hu v hf)
      show (l.atoi v = INFINITE ↔ _) ∧ (l.atoi v ≠ INFINITE → l.atoi v % 4294967296 < 2147483648)
      rw [hval]
      refine ⟨iff_of_false (fun heq => ?_) (fun hc => by cases hc.1), fun _ => by omega⟩
      have : (v % 4294967296).toNat = 4294967295 := heq
      omega
    | none =>
      cases hfind : path.findSome? f with
      | none =>
        refine ⟨iff_of_true rfl ⟨rfl, fun q hq => ?_⟩, fun h => absurd rfl h⟩
        exact List.findSome?_eq_none_iff.mp hfind q hq
      | some v =>
        obtain ⟨q, hq, hget⟩ := List.exists_of_findSome?_eq_some hfind
        have hfit := hpath q hq v hget
        obtain ⟨hval, hne⟩ := field_eq hfit
        obtain ⟨hpos, hlow, -⟩ := hfit
        show (l.parent v = INFINITE ↔ _) ∧
          (l.parent v ≠ INFINITE → l.parent v % 4294967296 < 2147483648)
        rw [parent_eq]
        refine ⟨iff_of_false hne fun hc => ?_, fun _ => by omega⟩
        rw [hc.2 q hq] at hget
        cases hget

end Values

/-! ## The table after the change -/

theorem int32_natCast (x : Nat) :
    int32 x % 4294967296 = (x : Int) % 4294967296 ∧ -2147483648 ≤ int32 x := by
  unfold int32
  rw [Int.bmod_def]
  split <;> omega

theorem Limits.get_with (put : PerJob → Option Int → Option Int) (r : Limits) (l : PerJob) :
    Limits.get { r with
      maxJobs := put .maxJobs r.maxJobs
      maxSubmitJobs := put .maxSubmitJobs r.maxSubmitJobs
      maxCpusPerJob := put .maxCpusPj r.maxCpusPerJob
      maxNodesPerJob := put .maxNodesPj r.maxNodesPerJob
      maxWallDurationPerJob := put .maxWallPj r.maxWallDurationPerJob
      maxCpuMinsPerJob := put .maxCpuMinsPj r.maxCpuMinsPerJob } l = put l (r.get l) := by
  cases l <;> rfl

theorem Limits.get_set (c : Change) (r : Limits) (l : PerJob) :
    (c.set r).get l = c.put l (r.get l) := Limits.get_with c.put r l

section Changed

variable {c : Change} {l : PerJob} {v : Int} {f : Row → Option Int} {sel : Row → Bool}
variable {path : List Row}

theorem fits_int (h0 : 0 ≤ v) (h1 : v < 2147483648) : l.Fits v := by
  refine ⟨h0, by omega, ?_⟩
  cases l with
  | maxCpuMinsPj =>
    show v < 9223372036854775808
    omega
  | _ => exact h1

theorem put_fits {o : Option Int} (h : ∀ v, o = some v → l.Fits v) :
    ∀ v, c.put l o = some v → l.Fits v := by
  intro v hput
  unfold Change.put column at hput
  split at hput
  · rename_i hpos
    obtain rfl := Option.some.inj hput
    exact fits_int hpos (int32_lt _)
  · split at hput
    · cases hput
    · exact h v hput

theorem put_noVal (h : c.limits l = NO_VAL) (o : Option Int) : c.put l o = o := by
  have hnone : column NO_VAL = none := by decide
  unfold Change.put
  rw [h, hnone]
  rfl

/-- What is read where the change reaches is the change itself: an `int`, or `INFINITE` and no
other limit above. -/
theorem lineValue_put (hfits : ∀ q ∈ path, ∀ v, f q = some v → l.Fits v)
    (hr : Reached sel f path) :
    lineValue l (fun q => if sel q = true then c.put l (f q) else f q) path = c.limits l ↔
      c.limits l < 2147483648 ∨
        c.limits l = INFINITE ∧ ∀ q ∈ path, sel q = false → f q = none := by
  have hunsel : ∀ q ∈ path, sel q = false →
      (if sel q = true then c.put l (f q) else f q) = f q := by
    intro q _ hs
    rw [hs]
    rfl
  have hfits' : ∀ q ∈ path, ∀ v, (if sel q = true then c.put l (f q) else f q) = some v →
      l.Fits v := by
    intro q hq v hv
    split at hv
    · exact put_fits (hfits q hq) v hv
    · exact hfits q hq v hv
  -- the column is an int: from 2^31 on a limit is negative, INFINITE is -1
  obtain ⟨hmod, hge⟩ := int32_natCast (c.limits l)
  have hlt := int32_lt (c.limits l)
  obtain ⟨hinf, hlow⟩ := lineValue_low hfits'
  by_cases hpos : int32 (c.limits l) ≥ 0
  · have hset : ∀ q ∈ path, sel q = true →
        (if sel q = true then c.put l (f q) else f q) = some (int32 (c.limits l)) := by
      intro q _ hs
      rw [if_pos hs]
      unfold Change.put column
      rw [if_pos hpos]
      rfl
    rw [lineValue_of_reached (fits_int hpos hlt) hlt hset hunsel hr]
    constructor
    · intro heq
      exact Or.inl (by omega)
    · rintro (hsmall | ⟨heq, -⟩)
      · omega
      · have : c.limits l = 4294967295 := heq
        omega
  · by_cases hcleared : int32 (c.limits l) = -1
    · have hset : ∀ q, sel q = true → (if sel q = true then c.put l (f q) else f q) = none := by
        intro q hs
        rw [if_pos hs]
        unfold Change.put column
        rw [if_neg hpos, if_pos hcleared]
        rfl
      constructor
      · intro heq
        have hval : lineValue l (fun q => if sel q = true then c.put l (f q) else f q) path =
            INFINITE := by
          by_contra hne
          have := hlow hne
          rw [heq] at this
          omega
        refine Or.inr ⟨heq.symm.trans hval, fun q hq hs => ?_⟩
        have := hinf.mp hval q hq
        rwa [hunsel q hq hs] at this
      · rintro (hsmall | ⟨heq, hall⟩)
        · omega
        · rw [heq]
          refine hinf.mpr fun q hq => ?_
          cases hs : sel q with
          | true =>
            have := hset q hs
            rwa [hs] at this
          | false => exact hall q hq hs
    · constructor
      · intro heq
        exfalso
        by_cases hne : lineValue l (fun q => if sel q = true then c.put l (f q) else f q) path =
            INFINITE
        · have : c.limits l = 4294967295 := heq.symm.trans hne
          omega
        · have := hlow hne
          rw [heq] at this
          omega
      · rintro (hsmall | ⟨heq, -⟩)
        · omega
        · have : c.limits l = 4294967295 := heq
          omega

end Changed

section Recolumned

variable {t : Table} {g : Row → Row} {r : Row}
variable (hge : ∀ r, (g r).toEntry = r.toEntry) (hgs : ∀ r, (g r).span = r.span)
variable (hgp : ∀ r, (g r).parentAcct = r.parentAcct)

include hgs in
theorem ancestors_recolumn (r : Row) : ancestors (t.map g) (g r) = (ancestors t r).map g := by
  have hlft : ∀ q, (g q).lft = q.lft := fun q => congrArg Span.lft (hgs q)
  have hsort := List.map_insertionSort (r := fun p q : Row => q.lft ≤ p.lft)
    (s := fun p q : Row => q.lft ≤ p.lft) g (t.filter fun q => Inside r.span q.span)
    fun p _ q _ => by rw [hlft, hlft]
  have hfilter : (fun q => decide (Inside (g r).span q.span)) ∘ g =
      fun q => decide (Inside r.span q.span) := by
    funext q
    show decide (Inside (g r).span (g q).span) = _
    rw [hgs, hgs]
  unfold ancestors
  rw [hsort, List.filter_map, hfilter]

include hgs in
theorem line_recolumn (r : Row) : line (t.map g) (g r) = (line t r).map g := by
  unfold line
  rw [ancestors_recolumn hgs, List.map_cons]

include hge hgp in
theorem isTop_recolumn : (g r).isTop ↔ r.isTop := by
  unfold Row.isTop
  rw [hge, hgp]

include hge hgs hgp in
theorem Tree.recolumn (h : Tree t) (hflag : ∀ r ∈ t, (g r).deleted < 2)
    (hfits : ∀ r ∈ t, ∀ l v, (g r).get l = some v → l.Fits v) : Tree (t.map g) := by
  refine ⟨h.toAccounts.recolumn hge hgs hflag, ?_, ?_, ?_, ?_⟩
  · refine List.forall_mem_map.mpr fun r hr htop => ?_
    have hroot := h.tops r hr ((isTop_recolumn hge hgp).mp htop)
    refine ⟨List.mem_map_of_mem hr, List.forall_mem_map.mpr fun s hs hsc => ?_⟩
    rw [hge, hge] at hsc
    rw [hgs, hgs]
    exact hroot.2 s hs hsc
  · refine List.forall_mem_map.mpr fun r hr htop => ?_
    obtain ⟨p, hp, hpu, hacct, hb⟩ := h.filed r hr fun hc => htop ((isTop_recolumn hge hgp).mpr hc)
    refine ⟨g p, List.mem_map_of_mem hp, ?_, ?_, (below_recolumn hgs).mpr hb⟩
    · rw [hge]
      exact hpu
    · unfold Row.parentName
      rw [hge, hge, hgp]
      exact hacct
  · refine List.forall_mem_map.mpr fun r hr => ?_
    rw [hge]
    exact h.named r hr
  · exact List.forall_mem_map.mpr hfits

include hge hgs in
theorem rowsOf_recolumn {sel : Row → Bool} (hsel : ∀ r, sel (g r) = sel r) :
    rowsOf sel (t.map g) = (rowsOf sel t).map g := by
  have hlft : ∀ q, (g q).lft = q.lft := fun q => congrArg Span.lft (hgs q)
  have hsort := List.map_insertionSort
    (r := fun r s : Row => r.cluster < s.cluster ∨ r.cluster = s.cluster ∧ r.lft ≤ s.lft)
    (s := fun r s : Row => r.cluster < s.cluster ∨ r.cluster = s.cluster ∧ r.lft ≤ s.lft)
    g (t.filter sel) fun p _ q _ => by rw [hge, hge, hlft, hlft]
  have hfilter : sel ∘ g = sel := funext hsel
  unfold rowsOf
  rw [hsort, List.filter_map, hfilter]

end Recolumned

theorem modifyLoop_none {mayModify : Row → Bool} {now : Int} {rows : List Row}
    (h : ∀ r ∈ rows, mayModify r = true) (t : Table) (ids : List Nat) :
    modifyLoop none mayModify now rows t ids = some (t, ids ++ rows.map fun r => r.id) := by
  induction rows generalizing ids with
  | nil => rw [modifyLoop, List.map_nil, List.append_nil]
  | cons row rows ih =>
    have hrest := ih (fun r hr => h r (List.mem_cons_of_mem _ hr)) (ids ++ [row.id])
    rw [List.append_assoc, List.singleton_append] at hrest
    rw [modifyLoop, h row List.mem_cons_self, if_neg (by simp), List.map_cons]
    split
    · exact hrest
    · exact hrest

/-- A row after the change. -/
def changeRow (sel : Row → Bool) (c : Change) (now : Int) (t : Table) (r : Row) : Row :=
  stmt (fun r => r.deleted = 0 ∧ r.id ∈ (fetched sel t).map fun r => r.id)
    (fun r => { r with modTime := now, toLimits := c.set r.toLimits }) r

theorem vals_eq {c : Change} (h : ∃ l, (column (c.limits l)).isSome) : c.vals = some c.set :=
  (Change.vals.eq_1 c).trans (if_pos h)

theorem modifyLimits_eq {fuel : Nat} {sel : Row → Bool} {c : Change} {mayModify : Row → Bool}
    {now : Int} {t t' : Table} {set : Limits → Limits} {updates : List (List ModAssoc)}
    (hvals : c.vals = some set)
    (hmod : modifyAssociations sel none (some set) mayModify now t = some t')
    (hqueue : (fetched sel t).mapM (queued fuel t c) = some updates) :
    modifyLimits fuel sel c mayModify now t = some (t', updates.flatten.reverse) := by
  unfold modifyLimits
  exact Option.bind_eq_some_iff.mpr ⟨set, hvals, Option.bind_eq_some_iff.mpr ⟨t', hmod,
    Option.bind_eq_some_iff.mpr ⟨updates, hqueue, rfl⟩⟩⟩

section ChangeRow

variable {sel : Row → Bool} {c : Change} {now : Int} {t : Table} {r : Row} {l : PerJob}

theorem modifyAssociations_limits {mayModify : Row → Bool}
    (h : ∀ r ∈ t, sel r = true → mayModify r = true) :
    modifyAssociations sel none (some c.set) mayModify now t =
      some (t.map (changeRow sel c now t)) := by
  have hmay : ∀ r ∈ fetched sel t, mayModify r = true :=
    fun r hr => h r (mem_fetched'.mp hr).1 (mem_fetched'.mp hr).2
  unfold modifyAssociations
  rw [modifyLoop_none hmay, List.nil_append]
  rfl

theorem changeRow_cases (sel : Row → Bool) (c : Change) (now : Int) (t : Table) (r : Row) :
    ∃ m limits, changeRow sel c now t r = { r with modTime := m, toLimits := limits } := by
  unfold changeRow stmt
  split
  · exact ⟨now, c.set r.toLimits, rfl⟩
  · exact ⟨r.modTime, r.toLimits, rfl⟩

theorem changeRow_entry (r : Row) : (changeRow sel c now t r).toEntry = r.toEntry := by
  obtain ⟨m, limits, heq⟩ := changeRow_cases sel c now t r
  rw [heq]

theorem changeRow_span (r : Row) : (changeRow sel c now t r).span = r.span := by
  obtain ⟨m, limits, heq⟩ := changeRow_cases sel c now t r
  rw [heq]
  rfl

theorem changeRow_parentAcct (r : Row) : (changeRow sel c now t r).parentAcct = r.parentAcct := by
  obtain ⟨m, limits, heq⟩ := changeRow_cases sel c now t r
  rw [heq]

theorem changeRow_deleted (r : Row) : (changeRow sel c now t r).deleted = r.deleted := by
  obtain ⟨m, limits, heq⟩ := changeRow_cases sel c now t r
  rw [heq]

theorem changeRow_get (h : WellFormed t) (hr : r ∈ t) (l : PerJob) :
    (changeRow sel c now t r).get l =
      if r.deleted = 0 ∧ sel r = true then c.put l (r.get l) else r.get l := by
  have hid : (r.id ∈ (fetched sel t).map fun r => r.id) ↔ sel r = true := by
    constructor
    · intro hmem
      obtain ⟨s, hs, heq⟩ := List.mem_map.mp hmem
      obtain ⟨hst, hsel⟩ := mem_fetched'.mp hs
      rwa [List.inj_on_of_nodup_map h.ids hst hr heq] at hsel
    · exact fun hsel => List.mem_map_of_mem (mem_fetched'.mpr ⟨hr, hsel⟩)
  by_cases hc : r.deleted = 0 ∧ sel r = true
  · have hrow : changeRow sel c now t r = { r with modTime := now, toLimits := c.set r.toLimits } :=
      if_pos ⟨hc.1, hid.mpr hc.2⟩
    rw [if_pos hc, hrow]
    exact Limits.get_set c r.toLimits l
  · have hrow : changeRow sel c now t r = r := if_neg fun hr => hc ⟨hr.1, hid.mp hr.2⟩
    rw [if_neg hc, hrow]

theorem Tree.changed (h : Tree t) (sel : Row → Bool) (c : Change) (now : Int) :
    Tree (t.map (changeRow sel c now t)) := by
  refine h.recolumn changeRow_entry changeRow_span changeRow_parentAcct (fun r hr => ?_) ?_
  · rw [changeRow_deleted]
    exact h.flags r hr
  · intro r hr l v hget
    rw [changeRow_get h.toWellFormed hr] at hget
    split at hget
    · exact put_fits (h.fits r hr l) v hget
    · exact h.fits r hr l v hget

end ChangeRow

/-! ## The two lists -/

/-- The user associations of two lists have the same limits. -/
def SameUsers (recs recs' : List AssocRec) : Prop :=
  List.Forall₂ (fun rec rec' => rec'.id = rec.id ∧ rec'.user = rec.user ∧
    (rec.user ≠ none → ∀ l, rec'.limits l = rec.limits l)) recs recs'

/-- The associations of a list that is read by their names, without the deleted ones. -/
def reads (read : Entry → Bool) (r : Row) : Bool := read r.toEntry && r.deleted = 0

/-- A limit stays, is set to an `int`, or is cleared where no other association above a user that
takes it over still sets it. -/
def Reconciled (t : Table) (sel : Row → Bool) (c : Change) (read : Entry → Bool) (l : PerJob) :
    Prop :=
  c.limits l = NO_VAL ∨ c.limits l < 2147483648 ∨
    ∀ u ∈ t, u.user ≠ "" → reads read u = true → Pushed t sel u l →
      c.limits l = INFINITE ∧ ∀ q ∈ line t u, sel q = false → q.get l = none

/-- What is said of the record of a row, as far as users go. -/
structure ReadBack (t : Table) (row : Row) (rec : AssocRec) : Prop where
  id : rec.id = row.id
  user : rec.user = if row.user = "" then none else some row.user
  limits : row.user ≠ "" → ∀ l, rec.limits l = lineValue l (fun q => q.get l) (line t row)

section Lists

variable {t : Table} {u : Row} {l : PerJob} {c : Change} {sel : Row → Bool} {now : Int}

theorem getAssociations_readBack (h : Tree t) {fuel : Nat} (hfuel : t.length ≤ fuel)
    (withRawQos : Bool) (sel : Row → Bool) :
    ∃ recs, getAssociations fuel withRawQos sel t = some recs ∧
      List.Forall₂ (ReadBack t) (rowsOf sel t) recs := by
  obtain ⟨recs, hget, hrecs⟩ := @getAssociations_records t fuel withRawQos h hfuel sel
  refine ⟨recs, hget, ?_⟩
  refine (Records.forall₂_iff (C := fun _ _ => True) (fun pre row rec hrow hc => ?_) hrecs).mpr
    fun _ _ _ _ => trivial
  refine iff_of_true ⟨hc.id, hc.user, fun huser l => ?_⟩ trivial
  rw [hc.limits l, carried, if_neg fun htop => huser htop.1]
  rfl

theorem forall₂_iff_forall {α β γ : Type} {P : α → β → Prop} {P' : α → γ → Prop}
    {Q : β → γ → Prop} {S : α → Prop} {as : List α} {bs : List β} {cs : List γ}
    (hb : List.Forall₂ P as bs) (hc : List.Forall₂ P' as cs)
    (h : ∀ a ∈ as, ∀ b c, P a b → P' a c → (Q b c ↔ S a)) :
    List.Forall₂ Q bs cs ↔ ∀ a ∈ as, S a := by
  induction hb generalizing cs with
  | nil =>
    cases hc
    exact iff_of_true List.Forall₂.nil fun a ha => absurd ha List.not_mem_nil
  | cons hab _ ih =>
    obtain _ | ⟨hac, hrest⟩ := hc
    rw [List.forall₂_cons, h _ List.mem_cons_self _ _ hab hac, List.forall_mem_cons,
      ih hrest fun a ha => h a (List.mem_cons_of_mem _ ha)]

theorem lineValue_map (l : PerJob) (f : Row → Option Int) (g : Row → Row) (path : List Row) :
    lineValue l f (path.map g) = lineValue l (fun q => f (g q)) path := by
  cases path with
  | nil => rfl
  | cons u path =>
    rw [List.map_cons, lineValue, lineValue, List.findSome?_map]
    rfl

theorem lineValue_congr {f f' : Row → Option Int} {path : List Row}
    (h : ∀ q ∈ path, f q = f' q) : lineValue l f path = lineValue l f' path := by
  cases path with
  | nil => rfl
  | cons u path =>
    obtain ⟨hu, hpath⟩ := List.forall_mem_cons.mp h
    have hfind : path.findSome? f = path.findSome? f' := by
      induction path with
      | nil => rfl
      | cons q path ih =>
        obtain ⟨hq, hrest⟩ := List.forall_mem_cons.mp hpath
        rw [List.findSome?_cons, List.findSome?_cons, hq,
          ih (List.forall_mem_cons.mpr ⟨hu, hrest⟩) hrest]
    rw [lineValue, lineValue, hu, hfind]

/-- The limit of a user after the change, from the columns before it. -/
theorem lineValue_changed (h : LiveTree t) (hu : u ∈ t) (hlive : u.deleted = 0) :
    lineValue l (fun q => q.get l)
        (line (t.map (changeRow sel c now t)) (changeRow sel c now t u)) =
      lineValue l (fun q => if sel q = true then c.put l (q.get l) else q.get l) (line t u) := by
  rw [line_recolumn changeRow_span, lineValue_map]
  refine lineValue_congr fun q hq => ?_
  have hqd : q.deleted = 0 := by
    obtain rfl | hanc := List.mem_cons.mp hq
    · exact hlive
    · exact h.live u hu hlive q hanc
  rw [changeRow_get h.toWellFormed (mem_line hu q hq)]
  exact if_congr (and_iff_right hqd) rfl rfl

/-- The limit pushed to a user is the one that is read again if and only if it is reconciled. -/
theorem pushed_value_iff (h : LiveTree t) (hu : u ∈ t) {p : Prop} [Decidable p]
    (hp : p ↔ c.limits l ≠ NO_VAL ∧ Pushed t sel u l) :
    (if p then c.limits l else lineValue l (fun q => q.get l) (line t u)) =
      lineValue l (fun q => if sel q = true then c.put l (q.get l) else q.get l) (line t u) ↔
      c.limits l = NO_VAL ∨ c.limits l < 2147483648 ∨
        (Pushed t sel u l → c.limits l = INFINITE ∧
          ∀ q ∈ line t u, sel q = false → q.get l = none) := by
  have hfits : ∀ q ∈ line t u, ∀ v, q.get l = some v → l.Fits v :=
    fun q hq => h.fits q (mem_line hu q hq) l
  by_cases hno : c.limits l = NO_VAL
  · rw [if_neg fun hc => (hp.mp hc).1 hno]
    refine iff_of_true (lineValue_congr fun q _ => ?_) (Or.inl hno)
    rw [put_noVal hno]
    split <;> rfl
  · by_cases hpushed : Pushed t sel u l
    · rw [if_pos (hp.mpr ⟨hno, hpushed⟩), or_iff_right hno, eq_comm, lineValue_put hfits hpushed]
      exact or_congr_right ⟨fun hc _ => hc, fun hc => hc hpushed⟩
    · rw [if_neg fun hc => hpushed (hp.mp hc).2]
      refine iff_of_true (lineValue_of_not_reached (fun q _ hs => ?_) hpushed).symm
        (Or.inr (Or.inr fun hc => absurd hc hpushed))
      rw [hs]
      rfl

theorem reads_changed (read : Entry → Bool) (r : Row) :
    reads read (changeRow sel c now t r) = reads read r := by
  unfold reads
  rw [changeRow_entry, changeRow_deleted]

theorem mem_rowsOf {sel : Row → Bool} {r : Row} : r ∈ rowsOf sel t ↔ r ∈ t ∧ sel r = true :=
  (List.mem_insertionSort _).trans List.mem_filter

theorem nodup_ids (h : WellFormed t) {read : Entry → Bool} {recs : List AssocRec}
    (hrecs : List.Forall₂ (ReadBack t) (rowsOf (reads read) t) recs) :
    (recs.map AssocRec.id).Nodup := by
  have heq : recs.map AssocRec.id = (rowsOf (reads read) t).map fun r => r.id := by
    refine List.forall₂_eq_eq_eq ▸ ?_
    rw [List.forall₂_map_left_iff, List.forall₂_map_right_iff]
    exact List.Forall₂.flip (hrecs.imp fun _ _ hrow => hrow.id)
  have hperm : ((rowsOf (reads read) t).map fun r => r.id).Perm
      ((t.filter (reads read)).map fun r => r.id) := (List.perm_insertionSort _ _).map _
  rw [heq, hperm.nodup_iff]
  exact h.ids.sublist (List.filter_sublist.map _)

/-- The record of a row after the updates, and the one that is read again. -/
theorem same_iff (h : LiveTree t) {updates : List ModAssoc} {read : Entry → Bool}
    (hmem : ∀ e, e ∈ updates ↔ ∃ s ∈ fetched sel t, e = ⟨s.id, c.limits⟩ ∨
      s.user = "" ∧ ∃ u below, Told t c.limits (line t s) below u e)
    (hu : u ∈ rowsOf (reads read) t) {rec rec' : AssocRec} (hrec : ReadBack t u rec)
    (hrec' : ReadBack (t.map (changeRow sel c now t)) (changeRow sel c now t u) rec') :
    (rec'.id = (updates.foldl touch rec).id ∧ rec'.user = (updates.foldl touch rec).user ∧
      ((updates.foldl touch rec).user ≠ none →
        ∀ l, rec'.limits l = (updates.foldl touch rec).limits l)) ↔
      (u.user ≠ "" → ∀ l, c.limits l = NO_VAL ∨ c.limits l < 2147483648 ∨
        (Pushed t sel u l → c.limits l = INFINITE ∧
          ∀ q ∈ line t u, sel q = false → q.get l = none)) := by
  obtain ⟨hut, hreads⟩ := mem_rowsOf.mp hu
  have hlive : u.deleted = 0 := by
    unfold reads at hreads
    rw [Bool.and_eq_true, decide_eq_true_eq] at hreads
    exact hreads.2
  obtain ⟨hfid, hfuser⟩ := foldl_touch_id updates rec
  have hid : rec'.id = rec.id := by
    rw [hrec'.id, changeRow_entry, hrec.id]
  have huser : rec'.user = rec.user := by
    rw [hrec'.user, changeRow_entry, hrec.user]
  rw [hfid, hfuser, and_iff_right hid, and_iff_right huser]
  have hnone : rec.user ≠ none ↔ u.user ≠ "" := by
    rw [hrec.user]
    split
    · exact iff_of_false (fun hc => hc rfl) fun hc => hc ‹_›
    · exact iff_of_true (by simp) ‹_›
  rw [hnone]
  refine imp_congr_right fun hne => forall_congr' fun l => ?_
  obtain ⟨hsame, hpushed⟩ := updates_spec h hut hne hlive hmem l
  have hread' : rec'.limits l = lineValue l
      (fun q => if sel q = true then c.put l (q.get l) else q.get l) (line t u) := by
    rw [hrec'.limits (by rw [changeRow_entry]; exact hne) l]
    exact lineValue_changed h hut hlive
  rw [hread', foldl_touch_limits hsame, hrec.limits hne l, hrec.id, eq_comm]
  exact pushed_value_iff h hut hpushed

end Lists

/-- A change of limits is queued, and the queued updates leave the manager with the limits that
would be read again, for every user, if and only if each limit is reconciled. -/
theorem pushed_iff_reread {t : Table} (h : LiveTree t) {fuel : Nat} (hfuel : t.length ≤ fuel)
    (withRawQos : Bool) {sel : Row → Bool} {c : Change} {mayModify : Row → Bool} (now : Int)
    (hchange : ∃ l, (column (c.limits l)).isSome)
    (hmay : ∀ r ∈ t, sel r = true → mayModify r = true)
    (read : Entry → Bool) :
    ∃ t' updates recs recs', modifyLimits fuel sel c mayModify now t = some (t', updates) ∧
      getAssociations fuel withRawQos (reads read) t = some recs ∧
      getAssociations fuel withRawQos (reads read) t' = some recs' ∧
      (SameUsers (assocMgrUpdateAssocs updates recs) recs' ↔ ∀ l, Reconciled t sel c read l) := by
  obtain ⟨updates, hqueue, hmem⟩ := @queued_spec t sel c fuel h hfuel
  have htree := h.toTree.changed sel c now
  have hlen : (t.map (changeRow sel c now t)).length ≤ fuel := by
    rw [List.length_map]
    exact hfuel
  obtain ⟨recs, hget, hrecs⟩ := getAssociations_readBack h.toTree hfuel withRawQos (reads read)
  obtain ⟨recs', hget', hrecs'⟩ := getAssociations_readBack htree hlen withRawQos (reads read)
  refine ⟨t.map (changeRow sel c now t), updates.flatten.reverse, recs, recs', ?_, hget, hget', ?_⟩
  · exact modifyLimits_eq (vals_eq hchange) (modifyAssociations_limits hmay) hqueue
  · have hmem' : ∀ e, e ∈ updates.flatten.reverse ↔ ∃ s ∈ fetched sel t, e = ⟨s.id, c.limits⟩ ∨
        s.user = "" ∧ ∃ u below, Told t c.limits (line t s) below u e :=
      fun e => List.mem_reverse.trans (hmem e)
    rw [rowsOf_recolumn changeRow_entry changeRow_span (reads_changed read),
      List.forall₂_map_left_iff] at hrecs'
    rw [assocMgrUpdateAssocs_eq_map (nodup_ids h.toWellFormed hrecs)]
    unfold SameUsers
    rw [List.forall₂_map_left_iff, forall₂_iff_forall hrecs hrecs' fun u hu rec rec' hrec hrec' =>
      same_iff h hmem' hu hrec hrec']
    constructor
    · intro hall l
      by_cases hno : c.limits l = NO_VAL
      · exact Or.inl hno
      by_cases hsmall : c.limits l < 2147483648
      · exact Or.inr (Or.inl hsmall)
      refine Or.inr (Or.inr fun u hu hne hreads hpushed => ?_)
      have hdone := (hall u (mem_rowsOf.mpr ⟨hu, hreads⟩) hne l).resolve_left hno
      exact hdone.resolve_left hsmall hpushed
    · intro hall u hu hne l
      obtain ⟨hut, hreads⟩ := mem_rowsOf.mp hu
      exact (hall l).imp_right fun hc => hc.imp_right fun hc => hc u hut hne hreads

/-- A root with a limit, an account with one and a user of it. -/
def limited : Table :=
  [{ id := 1, acct := "root", cluster := "blue", maxJobs := some 10, lft := 1, rgt := 6 },
    { id := 2, acct := "physics", cluster := "blue", parentAcct := "root", maxJobs := some 20,
      lft := 2, rgt := 5 },
    { id := 3, user := "ann", acct := "physics", cluster := "blue", lft := 3, rgt := 4 }]

theorem liveTree_limited : LiveTree limited :=
  ⟨by decide +kernel, by decide +kernel, by decide +kernel, by decide +kernel⟩

/-- A change of `max_jobs`. -/
def maxJobsTo (x : Nat) (h : x < 4294967296) : Change where
  limits := fun l => if l = .maxJobs then x else NO_VAL
  fits := fun l => by
    split
    · rename_i hl
      rw [hl]
      exact h
    · cases l <;> decide

theorem pushed_iff_reread_five :
    ∃ t' updates recs recs', modifyLimits 3 (fun r => r.acct = "physics" && r.user = "")
        (maxJobsTo 5 (by decide)) (fun _ => true) 9 limited = some (t', updates) ∧
      getAssociations 3 false (reads fun _ => true) limited = some recs ∧
      getAssociations 3 false (reads fun _ => true) t' = some recs' ∧
      SameUsers (assocMgrUpdateAssocs updates recs) recs' := by
  have hchange : ∃ l, (column ((maxJobsTo 5 (by decide)).limits l)).isSome :=
    ⟨.maxJobs, by decide +kernel⟩
  obtain ⟨t', updates, recs, recs', hmod, hget, hget', hiff⟩ :=
    @pushed_iff_reread limited liveTree_limited 3 (Nat.le_refl 3) false
      (fun r => r.acct = "physics" && r.user = "") (maxJobsTo 5 (by decide)) (fun _ => true) 9
      hchange (fun _ _ _ => rfl) fun _ => true
  refine ⟨t', updates, recs, recs', hmod, hget, hget', hiff.mpr fun l => ?_⟩
  cases l with
  | maxJobs => exact Or.inr (Or.inl (by decide))
  | _ => exact Or.inl rfl

/-- When the limit of the account is cleared its user inherits the one of the root, but is told
that there is none. -/
theorem not_sameUsers_cleared :
    ¬∀ (t : Table) (fuel : Nat) (sel : Row → Bool) (c : Change), LiveTree t → t.length ≤ fuel →
      (∃ l, (column (c.limits l)).isSome) →
      ∃ t' updates recs recs', modifyLimits fuel sel c (fun _ => true) 9 t = some (t', updates) ∧
        getAssociations fuel false (reads fun _ => true) t = some recs ∧
        getAssociations fuel false (reads fun _ => true) t' = some recs' ∧
        SameUsers (assocMgrUpdateAssocs updates recs) recs' := by
  intro hall
  let sel := fun r : Row => decide (r.acct = "physics") && decide (r.user = "")
  let c := maxJobsTo INFINITE (by decide)
  obtain ⟨t', updates, recs, recs', hmod, hget, hget', hsame⟩ :=
    hall limited 3 sel c liveTree_limited (Nat.le_refl 3) ⟨.maxJobs, by decide +kernel⟩
  have htold : ((modifyLimits 3 sel c (fun _ => true) 9 limited).bind fun r =>
      (getAssociations 3 false (reads fun _ => true) limited).map fun recs =>
        (assocMgrUpdateAssocs r.2 recs).map fun rec => (rec.user, rec.limits .maxJobs)) =
      some [(none, 10), (none, INFINITE), (some "ann", INFINITE)] := by decide +kernel
  have hread : ((modifyLimits 3 sel c (fun _ => true) 9 limited).bind fun r =>
      (getAssociations 3 false (reads fun _ => true) r.1).map
        (List.map fun rec => (rec.user, rec.limits .maxJobs))) =
      some [(none, 10), (none, 10), (some "ann", 10)] := by decide +kernel
  rw [hmod, Option.bind_some, hget, Option.map_some, Option.some.injEq] at htold
  rw [hmod, Option.bind_some, hget', Option.map_some, Option.some.injEq] at hread
  have hpairs : List.Forall₂ (fun a b : Option String × Nat => a.1 ≠ none → b.2 = a.2)
      ((assocMgrUpdateAssocs updates recs).map fun rec => (rec.user, rec.limits .maxJobs))
      (recs'.map fun rec => (rec.user, rec.limits .maxJobs)) := by
    rw [List.forall₂_map_left_iff, List.forall₂_map_right_iff]
    exact hsame.imp fun _ _ hrow hne => hrow.2.2 hne .maxJobs
  rw [htold, hread, List.forall₂_cons, List.forall₂_cons, List.forall₂_cons] at hpairs
  exact absurd (hpairs.2.2.1 (by simp)) (by decide)

end Slurm.AssocTable
