import SlurmLite.AssocTable.Modify
import SlurmLite.Base.Run

/-!
# New and revived associations

`acct_storage_p_add_associations` inserts new rows with their final positions and
a mark, and shifts the other rows only when the parent changes. An association
that was deleted keeps its row: it is revived in place, or moved first when it
gets another parent.

* **The loop** (`addStep`, `addLoop`, `addAssociations`).
* **The table meant** (`AddState.flushed`): the rows once the shift is made up for.
  A new association is a new leaf of it (`flush_insert`).
* **The invariant** (`Ready`): the table meant is in order and what was added is
  below its parent.
* **The condition** (`StepOk`): no item names a row that is not shifted yet, and no
  row is moved while there is one.
-/

namespace Slurm.AssocTable

open Base.NestedSets
open Base.Run

/-! ## The loop -/

/-- What is read of an `acct_association_rec_t`; `limits` is the change that
`_setup_association_limits` writes. -/
structure AssocObject where
  cluster : Option String
  acct : Option String
  parentAcct : Option String := none
  user : Option String := none
  partition : Option String := none
  limits : Limits → Limits := fun l => l

/-- The parent an association gets. -/
def AssocObject.parent (object : AssocObject) (acct : String) : String :=
  match object.parentAcct with
  | some parent => parent
  | none =>
    match object.user with
    | some _ => acct
    | none => "root"

/-- The condition on the row of an association. -/
def AssocObject.names (object : AssocObject) (cluster acct : String) (r : Row) : Bool :=
  r.cluster = cluster && r.acct = acct &&
    match object.user with
    | none => r.user = ""
    | some user => r.user = user && r.partition = object.partition.getD ""

structure AddState where
  t : Table
  nextId : Nat
  incr : Int := 0
  myLeft : Int := 0
  oldParent : Option String := none
  oldCluster : Option String := none
  /-- `rc` is `SLURM_SUCCESS`. -/
  rc : Bool := true
  /-- The associations put on the list of updates, with their ids. -/
  updateList : List (AssocObject × Nat) := []

/-- The updates that shift the rows behind the new ones. -/
def flush (incr myLeft : Int) (t : Table) : Table :=
  let t := update (fun r => r.rgt > myLeft ∧ r.deleted < 2)
    (fun r => { r with rgt := r.rgt + incr }) t
  let t := update (fun r => r.lft > myLeft ∧ r.deleted < 2)
    (fun r => { r with lft := r.lft + incr }) t
  update (fun r => r.deleted = 2) (fun r => { r with deleted := 0 }) t

/-- The row that is inserted. -/
def AssocObject.row (object : AssocObject) (cluster acct : String) (now : Int) (id : Nat)
    (lft rgt : Int) : Row where
  id := id
  user := object.user.getD ""
  acct := acct
  cluster := cluster
  partition := match object.user with
    | none => ""
    | some _ => object.partition.getD ""
  creationTime := now
  toLimits := object.limits {}
  modTime := now
  deleted := 2
  parentAcct := match object.user with
    | none => object.parent acct
    | some _ => ""
  lft := lft
  rgt := rgt

/-- The update of a row that is revived. -/
def revive (object : AssocObject) (cluster acct : String) (now : Int) : Table → Table :=
  update (fun r => object.names cluster acct r) fun r =>
    { r with
      deleted := 0
      modTime := now
      parentAcct := match object.user with
        | none => object.parent acct
        | some _ => r.parentAcct
      toLimits := object.limits r.toLimits }

/-- The first row of a query in the order of `lft`. -/
def firstRow (cond : Row → Bool) (t : Table) : Option Row := (orderByLft (t.filter cond)).head?

/-- The new row of an association at the place that is next. -/
def insertRow (object : AssocObject) (cluster acct : String) (now : Int) (s : AddState) :
    AddState :=
  let incr := s.incr + 2
  { s with
    t := s.t ++ [object.row cluster acct now s.nextId (s.myLeft + (incr - 1)) (s.myLeft + incr)]
    nextId := s.nextId + 1
    incr := incr
    rc := true
    updateList := s.updateList ++ [(object, s.nextId)] }

/-- The table before the left end of another parent is looked up. -/
def AddState.flushed (s : AddState) : Table :=
  if s.incr ≠ 0 then flush s.incr s.myLeft s.t else s.t

/-- One association, with whether the loop goes on. -/
def addStep (now : Int) (object : AssocObject) (s : AddState) : AddState × Bool :=
  match object.cluster, object.acct with
  | some cluster, some acct =>
    let parent := object.parent acct
    match firstRow (object.names cluster acct) s.t with
    | none =>
      if s.oldParent = some parent ∧ s.oldCluster = some cluster then
        (insertRow object cluster acct now s, true)
      else
        let t := s.flushed
        match firstRow (fun r => r.acct = parent ∧ r.cluster = cluster ∧ r.user = "") t with
        | none => ({ s with t := t, rc := false }, false)
        | some row =>
          (insertRow object cluster acct now { s with
            t := t
            incr := 0
            myLeft := row.lft
            oldParent := some parent
            oldCluster := some cluster }, true)
    | some row =>
      if row.deleted = 0 then (s, true)
      else
        let moved :=
          match object.parentAcct with
          | none => (s.t, true)
          | some parentAcct =>
            if parentAcct = row.parentAcct then (s.t, true)
            else moveParent row.lft row.rgt cluster row.id row.parentAcct parentAcct now s.t
        if moved.2 then
          ({ s with
            t := revive object cluster acct now moved.1
            rc := true
            updateList := s.updateList ++ [(object, row.id)] }, true)
        else ({ s with t := moved.1 }, true)
  | _, _ => ({ s with rc := false }, true)

def addLoop (now : Int) : List AssocObject → AddState → AddState
  | [], s => s
  | object :: objects, s =>
    match addStep now object s with
    | (s, true) => addLoop now objects s
    | (s, false) => s

/-- `acct_storage_p_add_associations`: the table and the associations added, `none`
when the call fails and is rolled back. -/
def addAssociations (now : Int) (objects : List AssocObject) (nextId : Nat) (t : Table) :
    Option (Table × List (AssocObject × Nat)) :=
  let s := addLoop now objects { t := t, nextId := nextId }
  if s.rc then some (s.flushed, s.updateList) else none

/-! ## The table meant -/

/-- The updates of `flush` on one row. -/
def flushRow (incr myLeft : Int) (r : Row) : Row :=
  if r.deleted < 2 then
    { r with
      lft := if r.lft > myLeft then r.lft + incr else r.lft
      rgt := if r.rgt > myLeft then r.rgt + incr else r.rgt }
  else if r.deleted = 2 then { r with deleted := 0 }
  else r

theorem flushRow_old {incr myLeft : Int} {r : Row} (hd : r.deleted < 2) :
    flushRow incr myLeft r =
      { r with
        lft := if r.lft > myLeft then r.lft + incr else r.lft
        rgt := if r.rgt > myLeft then r.rgt + incr else r.rgt } :=
  if_pos hd

theorem flushRow_new {incr myLeft : Int} {r : Row} (hd : r.deleted = 2) :
    flushRow incr myLeft r = { r with deleted := 0 } := by
  unfold flushRow
  rw [if_neg (by omega), if_pos hd]

theorem flush_eq_map (incr myLeft : Int) (t : Table) :
    flush incr myLeft t = t.map (flushRow incr myLeft) := by
  unfold flush update
  simp only [List.map_map]
  refine List.map_congr_left fun r _ => ?_
  obtain ⟨e, l, m, d, p, a, b⟩ := r
  simp only [Function.comp_apply, flushRow, stmt]
  by_cases hd : d < 2
  · have hd2 : d ≠ 2 := by omega
    by_cases ha : a > myLeft <;> by_cases hb : b > myLeft <;> simp [hd, hd2, ha, hb]
  · simp only [hd, and_false, if_false]

@[simp] theorem flushRow_entry (incr myLeft : Int) (r : Row) :
    (flushRow incr myLeft r).toEntry = r.toEntry := by
  unfold flushRow
  split
  · rfl
  · split <;> rfl

@[simp] theorem flushRow_parentAcct (incr myLeft : Int) (r : Row) :
    (flushRow incr myLeft r).parentAcct = r.parentAcct := by
  unfold flushRow
  split
  · rfl
  · split <;> rfl

/-! ## Trees of accounts -/

/-- A table whose trees hang below the accounts `root` and branch at accounts. -/
structure Accounts (t : Table) : Prop extends WellFormed t where
  rooted : ∀ r ∈ t, ∃ c, IsRoot t c ∧ c.cluster = r.cluster ∧ c.acct = "root" ∧ c.user = ""
  carriers : ∀ r ∈ t, ∀ s ∈ t, Inside r.span s.span → s.user = ""

/-- The account that the columns of a row name as its parent. -/
def Row.parentName (r : Row) : String :=
  if r.user ≠ "" ∧ r.parentAcct = "" then r.acct else r.parentAcct

/-- A row is the root or directly below the account it names. -/
def Filed (t : Table) (r : Row) : Prop :=
  r.acct = "root" ∧ r.user = "" ∨
    ∃ p ∈ t, p.user = "" ∧ p.acct = r.parentName ∧ Below t r p

/-- The account that an association is to be below. -/
def AssocObject.parentName (object : AssocObject) : String := object.parent (object.acct.getD "")

/-- The row is the one of an association. -/
def AssocObject.isRow (object : AssocObject) (r : Row) : Prop :=
  ∃ cluster acct, object.cluster = some cluster ∧ object.acct = some acct ∧
    object.names cluster acct r

/-- An association that was added is below its parent. -/
def Attached (t : Table) (object : AssocObject) (id : Nat) : Prop :=
  ∃ r ∈ t, r.id = id ∧ r.deleted ≠ 1 ∧ object.isRow r ∧
    ∃ p ∈ t, p.user = "" ∧ p.acct = object.parentName ∧ Inside r.span p.span ∧
      (p.acct = "root" ∨ Below t r p)

theorem AssocObject.isRow_congr {object : AssocObject} {r s : Row} (h : s.toEntry = r.toEntry) :
    object.isRow s ↔ object.isRow r := by
  unfold isRow names
  rw [h]

section Moved

variable {t : Table} {a q c r : Row} {id : Nat} {f : Row → Row}
variable (h : Accounts t) (ha : a ∈ t) (hq : q ∈ t) (hqc : q.cluster = a.cluster)
variable (hqa : ¬Branch a.span q.span) (hf : Moved a q id t f)
include h ha hq hqc hqa hf

/-- A move stays within its cluster. -/
theorem Moved.elsewhere (hr : r ∈ t) (hra : r.cluster ≠ a.cluster) : (f r).span = r.span := by
  obtain ⟨c, hc, hca, -⟩ := h.rooted a ha
  rw [hf.span r hr]
  refine relocate_elsewhere h.nested (mem_spans ha) (mem_spans hq) hqa (mem_spans hc.1)
    (hc.2 a ha hca.symm) (hc.2 q hq (hqc.trans hca.symm)) (mem_spans hr) ?_
  rintro (heq | hin)
  · rw [h.span_inj hr hc.1 heq] at hra
    exact hra hca
  · exact hra ((h.clusters r hr c hc.1 hin).trans hca)

/-- A root is the root after a move. -/
theorem Moved.isRoot (hc : IsRoot t c) : IsRoot (t.map f) (f c) := by
  have hentry : ∀ r ∈ t, (f r).toEntry = r.toEntry := fun r hr => (hf.same r hr).entry
  refine ⟨List.mem_map_of_mem hc.1, List.forall_mem_map.mpr fun s hs hsc => ?_⟩
  rw [hentry s hs, hentry c hc.1] at hsc
  by_cases hca : c.cluster = a.cluster
  · have hcq := hc.2 q hq (hqc.trans hca.symm)
    obtain heq | hin := hc.2 s hs hsc
    · rw [h.span_inj hs hc.1 heq]
      exact Or.inl rfl
    · right
      rw [hf.inside h.toWellFormed ha hq hqa hs hc.1]
      by_cases hcut : Branch a.span s.span ∧ ¬Branch a.span c.span
      · rw [if_pos hcut]
        exact hcq.imp (fun heq => (h.span_inj hq hc.1 heq).symm) fun hin => hin
      · rw [if_neg hcut]
        exact hin
  · rw [hf.elsewhere h ha hq hqc hqa hc.1 hca,
      hf.elsewhere h ha hq hqc hqa hs fun heq => hca (hsc.symm.trans heq)]
    exact hc.2 s hs hsc

theorem Moved.accounts (hqu : q.user = "") : Accounts (t.map f) := by
  have hentry : ∀ r ∈ t, (f r).toEntry = r.toEntry := fun r hr => (hf.same r hr).entry
  refine ⟨hf.wellFormed h.toWellFormed ha hq hqa hqc, ?_, ?_⟩
  · refine List.forall_mem_map.mpr fun r hr => ?_
    obtain ⟨c, hc, hcr, hacct, huser⟩ := h.rooted r hr
    refine ⟨f c, hf.isRoot h ha hq hqc hqa hc, ?_⟩
    rw [hentry c hc.1, hentry r hr]
    exact ⟨hcr, hacct, huser⟩
  · refine List.forall_mem_map.mpr fun r hr => List.forall_mem_map.mpr fun s hs hin => ?_
    rw [hentry s hs]
    rw [hf.inside h.toWellFormed ha hq hqa hr hs] at hin
    by_cases hcut : Branch a.span r.span ∧ ¬Branch a.span s.span
    · rw [if_pos hcut] at hin
      obtain rfl | hqs := hin
      · exact hqu
      · exact h.carriers q hq s hs hqs
    · rw [if_neg hcut] at hin
      exact h.carriers r hr s hs hin

omit hqc in
/-- A move leaves every other row below the account it names. -/
theorem Moved.filed (hr : r ∈ t) (hra : r ≠ a) (hid : r.id ≠ id) (hfiled : Filed t r) :
    Filed (t.map f) (f r) := by
  have hre := (hf.same r hr).entry
  unfold Filed
  rw [hre]
  refine hfiled.imp_right ?_
  rintro ⟨p, hp, hpu, hacct, hbelow⟩
  refine ⟨f p, List.mem_map_of_mem hp, ?_, ?_, ?_⟩
  · rw [(hf.same p hp).entry]
    exact hpu
  · unfold Row.parentName
    rw [(hf.same p hp).entry, hre, hf.parent r hr hid]
    exact hacct
  · rw [hf.below h.toWellFormed ha hq hqa hr hp, if_neg hra]
    exact hbelow

/-- What was added stays below its parent, unless it is what moves. -/
theorem Moved.placed {object : AssocObject} {i : Nat} (hp : Attached t object i)
    (hne : a.id = i → a.deleted ≠ 1 → object.parentName = "root") :
    Attached (t.map f) object i := by
  obtain ⟨r, hr, hri, hdel, hrow, p, hp, hpu, hacct, hin, hor⟩ := hp
  have hre := (hf.same r hr).entry
  have hpe := (hf.same p hp).entry
  refine ⟨f r, List.mem_map_of_mem hr, by rw [hre]; exact hri, ?_,
    (AssocObject.isRow_congr hre).mpr hrow, f p, List.mem_map_of_mem hp, ?_⟩
  · rw [(hf.same r hr).deleted]
    exact hdel
  · rw [hpe]
    refine ⟨hpu, hacct, ?_⟩
    have hroot : p.acct = "root" → Inside (f r).span (f p).span := by
      intro hproot
      obtain ⟨c, hc, hcp, hca, hcu⟩ := h.rooted p hp
      have hpc := h.account_eq hp hc.1 hpu hcu (hproot.trans hca.symm) hcp.symm
      subst hpc
      have hfroot := hf.isRoot h ha hq hqc hqa hc
      refine (hfroot.2 (f r) (List.mem_map_of_mem hr) ?_).resolve_left fun heq => ?_
      · rw [hre, hpe]
        exact h.clusters r hr p hp hin
      · have hrp : r = p := by
          refine List.inj_on_of_nodup_map h.ids hr hp ?_
          rw [← hre, ← hpe, (hf.wellFormed h.toWellFormed ha hq hqa
            hqc).span_inj (List.mem_map_of_mem hr) (List.mem_map_of_mem hp) heq]
        rw [hrp] at hin
        exact not_inside_self _ hin
    by_cases hpr : p.acct = "root"
    · exact ⟨hroot hpr, Or.inl hpr⟩
    · have hbelow := hor.resolve_left hpr
      have hra : r ≠ a := by
        rintro rfl
        exact hpr (hacct.trans (hne hri hdel))
      have hbelow' : Below (t.map f) (f r) (f p) := by
        rw [hf.below h.toWellFormed ha hq hqa hr hp, if_neg hra]
        exact hbelow
      exact ⟨hbelow'.1, Or.inr hbelow'⟩

end Moved

/-! ## New leaves -/

/-- Room for a leaf behind `p`. -/
def leafShift (p : Int) (r : Row) : Row := { r with lft := openGap p r.lft, rgt := openGap p r.rgt }

theorem leafShift_span (p : Int) (r : Row) : (leafShift p r).span = r.span.map (openGap p) := rfl

section Leaf

variable {t : Table} {q n r s : Row} {p : Int}
variable (h : Accounts t) (hq : q ∈ t) (hqp : q.lft ≤ p ∧ p < q.rgt) (hn : n.span = leafAt p)
variable (haround : ∀ r ∈ t, r.lft ≤ p → p < r.rgt → r = q ∨ Inside q.span r.span)

/-- The table with a new row. -/
def withLeaf (p : Int) (n : Row) (t : Table) : Table := t.map (leafShift p) ++ [n]

theorem mem_withLeaf (hr : r ∈ t) : leafShift p r ∈ withLeaf p n t :=
  List.mem_append_left _ (List.mem_map_of_mem hr)

theorem mem_withLeaf_new : n ∈ withLeaf p n t := List.mem_append_right _ List.mem_cons_self

theorem forall_mem_withLeaf {P : Row → Prop} :
    (∀ r ∈ withLeaf p n t, P r) ↔ (∀ r ∈ t, P (leafShift p r)) ∧ P n := by
  unfold withLeaf
  rw [List.forall_mem_append, List.forall_mem_map, List.forall_mem_singleton]

theorem inside_leafShift : Inside (leafShift p r).span (leafShift p s).span ↔
    Inside r.span s.span :=
  (keepsOrder_openGap p [r.span, s.span]).inside_iff (x := r.span) (y := s.span) (by simp)
    (by simp)

include hn

theorem spans_withLeaf :
    spans (withLeaf p n t) = (spans t).map (Span.map (openGap p)) ++ [leafAt p] := by
  unfold spans withLeaf
  rw [List.map_append, List.map_map, List.map_map, List.map_singleton, hn]
  rfl

include h

theorem not_inside_new (hr : r ∈ t) : ¬Inside (leafShift p r).span n.span := by
  rw [hn]
  exact not_inside_leafAt (x := r.span) (h.lft_lt_rgt hr)

theorem below_withLeaf (hr : r ∈ t) (hs : s ∈ t) :
    Below (withLeaf p n t) (leafShift p r) (leafShift p s) ↔ Below t r s := by
  unfold Below
  rw [spans_withLeaf hn]
  exact under_leafAt h.nested p (mem_spans hr) (mem_spans hs)

include haround

omit h in
/-- What is around the new row. -/
theorem inside_new (hr : r ∈ t) (hin : Inside n.span (leafShift p r).span) :
    r = q ∨ Inside q.span r.span := by
  rw [hn, leafShift_span] at hin
  have hends := inside_leafAt.mp hin
  exact haround r hr hends.1 hends.2

include hq hqp

omit h in
/-- The new row is directly below its parent. -/
theorem below_new : Below (withLeaf p n t) n (leafShift p q) := by
  have hin : Inside n.span (leafShift p q).span := by
    rw [hn, leafShift_span]
    exact inside_leafAt.mpr hqp
  refine ⟨hin, ?_⟩
  refine List.forall_mem_map.mpr (forall_mem_withLeaf.mpr ⟨fun r hr hnr => ?_, fun hnn => ?_⟩)
  · obtain rfl | hqr := inside_new hn haround hr hnr
    · exact Or.inl rfl
    · exact Or.inr (inside_leafShift.mpr hqr)
  · exact absurd hnn (not_inside_self _)

theorem Accounts.withLeaf (hqu : q.user = "") (hcluster : n.cluster = q.cluster)
    (hflag : n.deleted < 2) (hid : ∀ r ∈ t, r.id ≠ n.id) (hone : ∀ r ∈ t, OneAccount r n) :
    Accounts (withLeaf p n t) := by
  have hroots : ∀ c, IsRoot t c → IsRoot (AssocTable.withLeaf p n t) (leafShift p c) := by
    intro c hc
    refine ⟨mem_withLeaf hc.1, forall_mem_withLeaf.mpr ⟨fun s hs hsc => ?_, fun hnc => ?_⟩⟩
    · obtain heq | hin := hc.2 s hs hsc
      · rw [h.span_inj hs hc.1 heq]
        exact Or.inl rfl
      · exact Or.inr (inside_leafShift.mpr hin)
    · have hbelow := below_new hq hqp hn haround
      obtain heq | hin := hc.2 q hq (hcluster.symm.trans hnc)
      · rw [← h.span_inj hq hc.1 heq]
        exact Or.inr hbelow.1
      · exact Or.inr (hbelow.1.trans (inside_leafShift.mpr hin))
  refine ⟨⟨?_, ?_, ?_, ?_, ?_⟩, ?_, ?_⟩
  · unfold AssocTable.withLeaf
    rw [List.map_append, List.map_map, List.map_singleton]
    refine List.nodup_append.mpr ⟨h.ids, List.nodup_singleton _, ?_⟩
    intro i hi j hj
    obtain ⟨r, hr, rfl⟩ := List.mem_map.mp hi
    rw [List.mem_singleton.mp hj]
    exact hid r hr
  · refine List.pairwise_append.mpr ⟨List.pairwise_map.mpr h.accounts,
      List.pairwise_singleton _ _, ?_⟩
    refine List.forall_mem_map.mpr fun r hr s hs => ?_
    rw [List.mem_singleton.mp hs]
    exact hone r hr
  · rw [spans_withLeaf hn]
    exact nested_leafAt h.nested p
  · refine forall_mem_withLeaf.mpr ⟨fun r hr => forall_mem_withLeaf.mpr ⟨fun s hs hin => ?_,
      fun hin => ?_⟩, forall_mem_withLeaf.mpr ⟨fun s hs hin => ?_, fun _ => rfl⟩⟩
    · exact h.clusters r hr s hs (inside_leafShift.mp hin)
    · exact absurd hin (not_inside_new h hn hr)
    · obtain rfl | hqs := inside_new hn haround hs hin
      · exact hcluster
      · exact hcluster.trans (h.clusters q hq s hs hqs)
  · exact forall_mem_withLeaf.mpr ⟨h.flags, hflag⟩
  · refine forall_mem_withLeaf.mpr ⟨fun r hr => ?_, ?_⟩
    · obtain ⟨c, hc, hcr⟩ := h.rooted r hr
      exact ⟨leafShift p c, hroots c hc, hcr⟩
    · obtain ⟨c, hc, hcq, hcr⟩ := h.rooted q hq
      exact ⟨leafShift p c, hroots c hc, hcq.trans hcluster.symm, hcr⟩
  · refine forall_mem_withLeaf.mpr ⟨fun r hr => forall_mem_withLeaf.mpr ⟨fun s hs hin => ?_,
      fun hin => ?_⟩, forall_mem_withLeaf.mpr ⟨fun s hs hin => ?_, fun hin => ?_⟩⟩
    · exact h.carriers r hr s hs (inside_leafShift.mp hin)
    · exact absurd hin (not_inside_new h hn hr)
    · obtain rfl | hqs := inside_new hn haround hs hin
      · exact hqu
      · exact h.carriers q hq s hs hqs
    · exact absurd hin (not_inside_self _)

end Leaf

/-- A row before the shift: in its place, or new behind the left end of its parent. -/
def Waiting (incr myLeft : Int) (r : Row) : Prop :=
  r.deleted < 2 ∨ r.deleted = 2 ∧ myLeft < r.lft ∧ r.lft < r.rgt ∧ r.rgt ≤ myLeft + incr

/-- Without new rows there is nothing to shift. -/
theorem flush_zero {incr myLeft : Int} {t : Table} (hincr : incr = 0)
    (hw : ∀ r ∈ t, Waiting incr myLeft r) : flush incr myLeft t = t := by
  rw [flush_eq_map]
  refine (List.map_congr_left fun r hr => ?_).trans (List.map_id t)
  have hlow : r.deleted < 2 := by
    obtain hlow | hnew := hw r hr
    · exact hlow
    · omega
  rw [flushRow_old hlow, hincr]
  simp

/-- One more new row is one more leaf of the table meant. -/
theorem flush_insert {incr myLeft : Int} {t : Table} {n : Row} (hincr : 0 ≤ incr)
    (hw : ∀ r ∈ t, Waiting incr myLeft r) (hn : n.deleted = 2) :
    flush (incr + 2) myLeft (t ++ [n]) =
      withLeaf (myLeft + incr) { n with deleted := 0 } (flush incr myLeft t) := by
  rw [flush_eq_map, flush_eq_map]
  unfold withLeaf
  rw [List.map_append, List.map_map, List.map_singleton]
  congr 1
  · refine List.map_congr_left fun r hr => ?_
    rw [Function.comp_apply]
    unfold leafShift
    obtain hlow | ⟨hnew, hwait⟩ := hw r hr
    · rw [flushRow_old hlow, flushRow_old hlow]
      have hend : ∀ e : Int, (if e > myLeft then e + (incr + 2) else e) =
          openGap (myLeft + incr) (if e > myLeft then e + incr else e) := by
        intro e
        unfold openGap
        split <;> split <;> omega
      rw [hend, hend]
    · rw [flushRow_new hnew, flushRow_new hnew]
      have hend : ∀ e : Int, e ≤ myLeft + incr → openGap (myLeft + incr) e = e := by
        intro e he
        unfold openGap
        split <;> omega
      rw [hend r.lft (by omega), hend r.rgt (by omega)]
  · rw [flushRow_new hn]

/-- What is around the place of the next new row. -/
theorem around_flush {incr myLeft : Int} {t : Table} {q : Row} (hincr : 0 ≤ incr)
    (h : WellFormed (flush incr myLeft t)) (hw : ∀ r ∈ t, Waiting incr myLeft r) (hq : q ∈ t)
    (hql : q.lft = myLeft) (hqd : q.deleted < 2) :
    ((flushRow incr myLeft q).lft ≤ myLeft + incr ∧ myLeft + incr < (flushRow incr myLeft q).rgt) ∧
      ∀ r ∈ flush incr myLeft t, r.lft ≤ myLeft + incr → myLeft + incr < r.rgt →
        r = flushRow incr myLeft q ∨ Inside (flushRow incr myLeft q).span r.span := by
  have hmem : ∀ r ∈ t, flushRow incr myLeft r ∈ flush incr myLeft t := by
    intro r hr
    rw [flush_eq_map]
    exact List.mem_map_of_mem hr
  have hqlft : (flushRow incr myLeft q).lft = myLeft := by
    rw [flushRow_old hqd]
    simp only [hql, gt_iff_lt, lt_irrefl, if_false]
  have hqrgt : myLeft + incr < (flushRow incr myLeft q).rgt := by
    have hq' := h.lft_lt_rgt (hmem q hq)
    rw [flushRow_old hqd] at hq' ⊢
    simp only at hq' ⊢
    split at hq' <;> split <;> omega
  refine ⟨⟨by omega, hqrgt⟩, fun r' hr' hlow hhigh => ?_⟩
  by_cases hne : r'.span = (flushRow incr myLeft q).span
  · exact Or.inl (h.span_inj hr' (hmem q hq) hne)
  · -- both are around the place, and what is inside the parent begins behind it
    right
    have hbehind : ¬Inside r'.span (flushRow incr myLeft q).span := by
      rintro ⟨hlft, -⟩
      simp only [Row.span_lft, hqlft] at hlft
      rw [flush_eq_map] at hr'
      obtain ⟨r, hr, rfl⟩ := List.mem_map.mp hr'
      obtain hd | ⟨hd, hwait⟩ := hw r hr
      · rw [flushRow_old hd] at hlft hlow
        simp only at hlft hlow
        split at hlft <;> split at hlow <;> omega
      · rw [flushRow_new hd] at hhigh
        simp only at hhigh
        omega
    obtain hap | hap | hap | hap := h.nested.apart_of_ne (mem_spans hr') (mem_spans (hmem q hq)) hne
    · simp only [Row.span_lft, Row.span_rgt] at hap
      omega
    · simp only [Row.span_lft, Row.span_rgt] at hap
      omega
    · exact absurd hap hbehind
    · exact hap

/-! ## Other columns -/

section Recolumn

variable {t : Table} {g : Row → Row} {r s : Row}
variable (hge : ∀ r, (g r).toEntry = r.toEntry) (hgs : ∀ r, (g r).span = r.span)
include hgs

theorem spans_recolumn : spans (t.map g) = spans t := by
  unfold spans
  rw [List.map_map]
  exact List.map_congr_left fun r _ => hgs r

theorem below_recolumn : Below (t.map g) (g r) (g s) ↔ Below t r s := by
  unfold Below
  rw [spans_recolumn hgs, hgs, hgs]

include hge

theorem Accounts.recolumn (h : Accounts t) (hflag : ∀ r ∈ t, (g r).deleted < 2) :
    Accounts (t.map g) := by
  refine ⟨⟨?_, ?_, ?_, ?_, List.forall_mem_map.mpr hflag⟩, ?_, ?_⟩
  · rw [List.map_map]
    exact (List.map_congr_left fun r _ => congrArg Entry.id (hge r)) ▸ h.ids
  · refine List.pairwise_map.mpr (h.accounts.imp fun {r s} hone => ?_)
    unfold OneAccount
    rw [hge, hge]
    exact hone
  · rw [spans_recolumn hgs]
    exact h.nested
  · refine List.forall_mem_map.mpr fun r hr => List.forall_mem_map.mpr fun s hs hin => ?_
    rw [hgs, hgs] at hin
    rw [hge, hge]
    exact h.clusters r hr s hs hin
  · refine List.forall_mem_map.mpr fun r hr => ?_
    obtain ⟨c, hc, hcr⟩ := h.rooted r hr
    refine ⟨g c, ⟨List.mem_map_of_mem hc.1, List.forall_mem_map.mpr fun s hs hsc => ?_⟩, ?_⟩
    · rw [hgs, hgs]
      rw [hge, hge] at hsc
      exact hc.2 s hs hsc
    · rw [hge, hge]
      exact hcr
  · refine List.forall_mem_map.mpr fun r hr => List.forall_mem_map.mpr fun s hs hin => ?_
    rw [hgs, hgs] at hin
    rw [hge]
    exact h.carriers r hr s hs hin

theorem Filed.recolumn (hname : (g r).parentAcct = r.parentAcct) (h : Filed t r) :
    Filed (t.map g) (g r) := by
  unfold Filed
  rw [hge]
  refine h.imp_right ?_
  rintro ⟨p, hp, hpu, hacct, hbelow⟩
  refine ⟨g p, List.mem_map_of_mem hp, ?_, ?_, (below_recolumn hgs).mpr hbelow⟩
  · rw [hge]
    exact hpu
  · unfold Row.parentName
    rw [hge, hge, hname]
    exact hacct

theorem Attached.recolumn {object : AssocObject} {i : Nat}
    (hdel : ∀ r ∈ t, r.deleted ≠ 1 → (g r).deleted ≠ 1) (h : Attached t object i) :
    Attached (t.map g) object i := by
  obtain ⟨r, hr, hri, hrd, hrow, p, hp, hpu, hacct, hin, hor⟩ := h
  refine ⟨g r, List.mem_map_of_mem hr, by rw [hge]; exact hri, hdel r hr hrd,
    (AssocObject.isRow_congr (hge r)).mpr hrow, g p, List.mem_map_of_mem hp, ?_⟩
  rw [hge, hgs, hgs, below_recolumn hgs]
  exact ⟨hpu, hacct, hin, hor⟩

end Recolumn

section Leaf

variable {t : Table} {n r : Row} {p : Int}
variable (h : Accounts t) (hn : n.span = leafAt p)
include h hn

theorem Filed.withLeaf (hr : r ∈ t) (hf : Filed t r) : Filed (withLeaf p n t) (leafShift p r) := by
  refine hf.imp_right ?_
  rintro ⟨q, hq, hqu, hacct, hbelow⟩
  exact ⟨leafShift p q, mem_withLeaf hq, hqu, hacct, (below_withLeaf h hn hr hq).mpr hbelow⟩

theorem Attached.withLeaf {object : AssocObject} {i : Nat} (ha : Attached t object i) :
    Attached (withLeaf p n t) object i := by
  obtain ⟨r, hr, hri, hrd, hrow, q, hq, hqu, hacct, hin, hor⟩ := ha
  exact ⟨leafShift p r, mem_withLeaf hr, hri, hrd, (AssocObject.isRow_congr rfl).mpr hrow,
    leafShift p q, mem_withLeaf hq, hqu, hacct, inside_leafShift.mpr hin,
    hor.imp_right (below_withLeaf h hn hr hq).mpr⟩

end Leaf

/-! ## The invariant -/

/-- The table meant is in order, and what was added is below its parent. -/
structure Meant (s : AddState) : Prop where
  accounts : Accounts (flush s.incr s.myLeft s.t)
  ids : ∀ r ∈ s.t, r.id < s.nextId
  incr : 0 ≤ s.incr
  waiting : ∀ r ∈ s.t, Waiting s.incr s.myLeft r
  filed : ∀ r ∈ flush s.incr s.myLeft s.t, r.deleted ≠ 0 → Filed (flush s.incr s.myLeft s.t) r
  added : ∀ u ∈ s.updateList, Attached (flush s.incr s.myLeft s.t) u.1 u.2

/-- The account whose left end is `my_left`. -/
def Target (s : AddState) (parent cluster : String) : Prop :=
  ∃ q ∈ s.t, q.user = "" ∧ q.acct = parent ∧ q.cluster = cluster ∧ q.lft = s.myLeft ∧ q.deleted < 2

/-- Between two associations. -/
structure Ready (s : AddState) : Prop extends Meant s where
  fresh : s.incr = 0 → s.oldParent = none
  target : ∀ parent cluster, s.oldParent = some parent → s.oldCluster = some cluster →
    Target s parent cluster

theorem Meant.flushed_eq {s : AddState} (h : Meant s) :
    s.flushed = flush s.incr s.myLeft s.t := by
  unfold AddState.flushed
  by_cases hincr : s.incr = 0
  · rw [if_neg (not_not_intro hincr), flush_zero hincr h.waiting]
  · rw [if_pos hincr]

theorem mem_firstRow {cond : Row → Bool} {t : Table} {row : Row}
    (h : firstRow cond t = some row) : row ∈ t ∧ cond row = true := by
  have hmem := mem_orderByLft.mp (List.mem_of_mem_head? h)
  exact List.mem_filter.mp hmem

theorem firstRow_none {cond : Row → Bool} {t : Table} (h : firstRow cond t = none) :
    ∀ r ∈ t, cond r = false := by
  have hnil := orderByLft_eq_nil.mp (List.head?_eq_none_iff.mp h)
  intro r hr
  exact Bool.eq_false_iff.mpr (List.filter_eq_nil_iff.mp hnil r hr)

/-! ## New rows -/

theorem AssocObject.isRow_row {object : AssocObject} {cluster acct : String} {now lft rgt : Int}
    {id : Nat} (hc : object.cluster = some cluster) (ha : object.acct = some acct) :
    object.isRow (object.row cluster acct now id lft rgt) := by
  refine ⟨cluster, acct, hc, ha, ?_⟩
  unfold AssocObject.names AssocObject.row
  cases object.user with
  | none => simp
  | some user => simp

/-- A new row is not an account twice. -/
theorem oneAccount_row {object : AssocObject} {cluster acct : String} {now lft rgt : Int}
    {id : Nat} {r n : Row} (hu : object.user ≠ some "") (hr : object.names cluster acct r = false)
    (hn : n.toEntry = (object.row cluster acct now id lft rgt).toEntry) : OneAccount r n := by
  unfold OneAccount
  rw [hn]
  intro hru hnu hacct hcluster
  unfold AssocObject.names at hr
  unfold AssocObject.row at hnu hacct hcluster
  simp only at hnu hacct hcluster
  cases huser : object.user with
  | none =>
    rw [huser] at hr
    simp [hru, hacct, hcluster] at hr
  | some user =>
    rw [huser] at hnu hu
    exact hu (congrArg some hnu)

/-- A new row behind the others of its parent. -/
theorem Meant.insertRow {s : AddState} {object : AssocObject} {cluster acct : String} (now : Int)
    (h : Meant s) (hu : object.user ≠ some "") (hc : object.cluster = some cluster)
    (ha : object.acct = some acct) (hnone : ∀ r ∈ s.t, object.names cluster acct r = false)
    (hp : s.oldParent = some (object.parent acct)) (hpc : s.oldCluster = some cluster)
    (htarget : Target s (object.parent acct) cluster) :
    Ready (insertRow object cluster acct now s) := by
  obtain ⟨q, hq, hqu, hqa, hqc, hql, hqd⟩ := htarget
  have hincr := h.incr
  obtain ⟨hqp, haround⟩ := around_flush hincr h.accounts.toWellFormed h.waiting hq hql hqd
  have hfq : flushRow s.incr s.myLeft q ∈ flush s.incr s.myLeft s.t := by
    rw [flush_eq_map]
    exact List.mem_map_of_mem hq
  have hfqe : (flushRow s.incr s.myLeft q).toEntry = q.toEntry := flushRow_entry _ _ q
  let new := object.row cluster acct now s.nextId (s.myLeft + (s.incr + 2 - 1))
    (s.myLeft + (s.incr + 2))
  let leaf : Row := { new with deleted := 0 }
  have hleaf : leaf.span = leafAt (s.myLeft + s.incr) := by
    show Span.mk (s.myLeft + (s.incr + 2 - 1)) (s.myLeft + (s.incr + 2)) = _
    unfold leafAt
    congr 1 <;> omega
  -- written out, the rows have the new leaf at the end of its parent
  have hflush : flush (s.incr + 2) s.myLeft (s.t ++ [new]) =
      withLeaf (s.myLeft + s.incr) leaf (flush s.incr s.myLeft s.t) :=
    flush_insert hincr h.waiting rfl
  -- nothing but the numbers changes in the others
  have hold : ∀ r ∈ flush s.incr s.myLeft s.t, ∃ r₀ ∈ s.t, r.toEntry = r₀.toEntry := by
    rw [flush_eq_map]
    exact List.forall_mem_map.mpr fun r hr => ⟨r, hr, flushRow_entry _ _ r⟩
  have haccounts : Accounts (withLeaf (s.myLeft + s.incr) leaf (flush s.incr s.myLeft s.t)) := by
    refine h.accounts.withLeaf hfq hqp hleaf haround ?_ ?_ Nat.two_pos ?_ ?_
    · rw [hfqe]
      exact hqu
    · rw [hfqe]
      exact hqc.symm
    · intro r hr
      obtain ⟨r₀, hr₀, hre⟩ := hold r hr
      rw [hre]
      exact (h.ids r₀ hr₀).ne
    · intro r hr
      obtain ⟨r₀, hr₀, hre⟩ := hold r hr
      refine @oneAccount_row object cluster acct now (s.myLeft + (s.incr + 2 - 1))
        (s.myLeft + (s.incr + 2)) s.nextId r leaf hu ?_ rfl
      have := hnone r₀ hr₀
      unfold AssocObject.names at this ⊢
      rw [hre]
      exact this
  refine ⟨⟨?_, ?_, ?_, ?_, ?_, ?_⟩, ?_, ?_⟩
  · exact hflush ▸ haccounts
  · refine List.forall_mem_append.mpr ⟨fun r hr => ?_, List.forall_mem_singleton.mpr ?_⟩
    · exact (h.ids r hr).trans (Nat.lt_succ_self _)
    · exact Nat.lt_succ_self _
  · show 0 ≤ s.incr + 2
    omega
  · refine List.forall_mem_append.mpr ⟨fun r hr => ?_, List.forall_mem_singleton.mpr ?_⟩
    · refine (h.waiting r hr).imp_right fun hw => ?_
      show r.deleted = 2 ∧ s.myLeft < r.lft ∧ r.lft < r.rgt ∧ r.rgt ≤ s.myLeft + (s.incr + 2)
      omega
    · refine Or.inr ⟨rfl, ?_⟩
      show s.myLeft < s.myLeft + (s.incr + 2 - 1) ∧
        s.myLeft + (s.incr + 2 - 1) < s.myLeft + (s.incr + 2) ∧
        s.myLeft + (s.incr + 2) ≤ s.myLeft + (s.incr + 2)
      omega
  · show ∀ r ∈ flush (s.incr + 2) s.myLeft (s.t ++ [new]), r.deleted ≠ 0 →
      Filed (flush (s.incr + 2) s.myLeft (s.t ++ [new])) r
    rw [hflush]
    refine forall_mem_withLeaf.mpr ⟨fun r hr hdel => ?_, fun hdel => absurd rfl hdel⟩
    exact (h.filed r hr hdel).withLeaf h.accounts hleaf hr
  · show ∀ u ∈ s.updateList ++ [(object, s.nextId)],
      Attached (flush (s.incr + 2) s.myLeft (s.t ++ [new])) u.1 u.2
    rw [hflush]
    refine List.forall_mem_append.mpr ⟨fun u hu => ?_, List.forall_mem_singleton.mpr ?_⟩
    · exact (h.added u hu).withLeaf h.accounts hleaf
    · have hbelow := below_new hfq hqp hleaf haround
      have hrow : object.isRow new := AssocObject.isRow_row hc ha
      refine ⟨leaf, mem_withLeaf_new, rfl, Nat.zero_ne_one,
        (AssocObject.isRow_congr (r := new) rfl).mpr hrow,
        leafShift _ (flushRow s.incr s.myLeft q), mem_withLeaf hfq, ?_, ?_, hbelow.1, Or.inr hbelow⟩
      · show (flushRow s.incr s.myLeft q).user = ""
        rw [hfqe]
        exact hqu
      · show (flushRow s.incr s.myLeft q).acct = object.parentName
        unfold AssocObject.parentName
        rw [hfqe, ha]
        exact hqa
  · intro hzero
    have : s.incr + 2 = 0 := hzero
    omega
  · intro parent cluster' hp' hpc'
    obtain rfl : object.parent acct = parent := Option.some.inj (hp.symm.trans hp')
    obtain rfl : cluster = cluster' := Option.some.inj (hpc.symm.trans hpc')
    exact ⟨q, List.mem_append_left _ hq, hqu, hqa, hqc, hql, hqd⟩

/-! ## Revived rows -/

/-- The update of `revive` on one row. -/
def reviveRow (object : AssocObject) (cluster acct : String) (now : Int) : Row → Row :=
  stmt (fun r => object.names cluster acct r = true) fun r =>
    { r with
      deleted := 0
      modTime := now
      parentAcct := match object.user with
        | none => object.parent acct
        | some _ => r.parentAcct
      toLimits := object.limits r.toLimits }

theorem revive_eq_map (object : AssocObject) (cluster acct : String) (now : Int) (t : Table) :
    revive object cluster acct now t = t.map (reviveRow object cluster acct now) := rfl

section Revive

variable {object : AssocObject} {cluster acct : String} {now : Int}

theorem reviveRow_entry (r : Row) :
    (reviveRow object cluster acct now r).toEntry = r.toEntry := by
  unfold reviveRow stmt
  split <;> rfl

theorem reviveRow_span (r : Row) : (reviveRow object cluster acct now r).span = r.span := by
  unfold reviveRow stmt
  split <;> rfl

theorem reviveRow_eq {r : Row} (h : object.names cluster acct r = true) :
    reviveRow object cluster acct now r =
      { r with
        deleted := 0
        modTime := now
        parentAcct := match object.user with
          | none => object.parent acct
          | some _ => r.parentAcct
        toLimits := object.limits r.toLimits } :=
  if_pos h

theorem reviveRow_named {r : Row} (now : Int) (h : object.names cluster acct r = true) :
    (reviveRow object cluster acct now r).deleted = 0 := by
  rw [reviveRow_eq h]

theorem reviveRow_other {r : Row} (now : Int) (h : object.names cluster acct r = false) :
    reviveRow object cluster acct now r = r :=
  stmt_neg (Bool.eq_false_iff.mp h)

theorem reviveRow_deleted (object : AssocObject) (cluster acct : String) (now : Int) (r : Row) :
    (reviveRow object cluster acct now r).deleted = 0 ∨
      reviveRow object cluster acct now r = r := by
  cases hname : object.names cluster acct r with
  | true => exact Or.inl (reviveRow_named now hname)
  | false => exact Or.inr (reviveRow_other now hname)

theorem forall_mem_revive {t : Table} {P : Row → Prop} :
    (∀ r ∈ revive object cluster acct now t, P r) ↔
      ∀ r ∈ t, P (reviveRow object cluster acct now r) := by
  rw [revive_eq_map]
  exact List.forall_mem_map

/-- The shift does not see which rows were revived. -/
theorem flush_revive {incr myLeft : Int} {t : Table}
    (hlow : ∀ r ∈ t, object.names cluster acct r = true → r.deleted < 2) :
    flush incr myLeft (revive object cluster acct now t) =
      revive object cluster acct now (flush incr myLeft t) := by
  rw [revive_eq_map, revive_eq_map, flush_eq_map, flush_eq_map, List.map_map, List.map_map]
  refine List.map_congr_left fun r hr => ?_
  simp only [Function.comp_apply]
  have hnames : ∀ r', r'.toEntry = r.toEntry →
      object.names cluster acct r' = object.names cluster acct r := by
    intro r' hr'
    unfold AssocObject.names
    rw [hr']
  cases hname : object.names cluster acct r with
  | false =>
    rw [reviveRow_other now hname, reviveRow_other now]
    rw [hnames _ (flushRow_entry _ _ r), hname]
  | true =>
    have hd := hlow r hr hname
    have hnamed : object.names cluster acct (flushRow incr myLeft r) = true :=
      (hnames _ (flushRow_entry _ _ r)).trans hname
    rw [reviveRow_eq hname, reviveRow_eq hnamed, flushRow_old hd]
    exact flushRow_old Nat.two_pos

/-- The table a row is revived in: in order, and the row below its parent. -/
structure Settled (t : Table) (row : Row) (parent : String)
    (updateList : List (AssocObject × Nat)) : Prop where
  accounts : Accounts t
  filed : ∀ r ∈ t, r.id ≠ row.id → r.deleted ≠ 0 → Filed t r
  added : ∀ u ∈ updateList, Attached t u.1 u.2
  place : ∃ r ∈ t, r.toEntry = row.toEntry ∧ ∃ p ∈ t, p.user = "" ∧ p.acct = parent ∧
    Inside r.span p.span ∧ (p.acct = "root" ∨ Below t r p)

variable {t : Table} {row : Row} {updateList : List (AssocObject × Nat)}
variable (hc : object.cluster = some cluster) (ha : object.acct = some acct)
variable (hname : object.names cluster acct row = true)
variable (h : Settled t row (object.parent acct) updateList)

include h

theorem Settled.accounts_revive : Accounts (revive object cluster acct now t) := by
  rw [revive_eq_map]
  refine h.accounts.recolumn reviveRow_entry reviveRow_span fun r hr => ?_
  obtain hzero | hsame := reviveRow_deleted object cluster acct now r
  · rw [hzero]
    exact Nat.two_pos
  · rw [hsame]
    exact h.accounts.flags r hr

include hname

theorem Settled.filed_revive : ∀ r ∈ revive object cluster acct now t, r.deleted ≠ 0 →
    Filed (revive object cluster acct now t) r := by
  rw [revive_eq_map]
  refine List.forall_mem_map.mpr fun r hr hdel => ?_
  cases hr' : object.names cluster acct r with
  | true => exact absurd (reviveRow_named now hr') hdel
  | false =>
    have hsame := reviveRow_other now hr'
    refine Filed.recolumn reviveRow_entry reviveRow_span (by rw [hsame]) (h.filed r hr ?_ ?_)
    · intro hid
      obtain ⟨r₁, hr₁, hre, -⟩ := h.place
      have : r = r₁ := List.inj_on_of_nodup_map h.accounts.ids hr hr₁ (by rw [hid, hre])
      subst this
      unfold AssocObject.names at hname hr'
      rw [hre, hname] at hr'
      exact Bool.noConfusion hr'
    · rw [hsame] at hdel
      exact hdel

include hc ha

theorem Settled.added_revive : ∀ u ∈ updateList ++ [(object, row.id)],
    Attached (revive object cluster acct now t) u.1 u.2 := by
  rw [revive_eq_map]
  refine List.forall_mem_append.mpr ⟨fun u hu => ?_, List.forall_mem_singleton.mpr ?_⟩
  · refine (h.added u hu).recolumn reviveRow_entry reviveRow_span fun r _ hdel => ?_
    obtain hzero | hsame := reviveRow_deleted object cluster acct now r
    · rw [hzero]
      exact Nat.zero_ne_one
    · rw [hsame]
      exact hdel
  · obtain ⟨r, hr, hre, p, hp, hpu, hpa, hin, hor⟩ := h.place
    have hnamed : object.names cluster acct r = true := by
      unfold AssocObject.names at hname ⊢
      rw [hre]
      exact hname
    refine ⟨reviveRow object cluster acct now r, List.mem_map_of_mem hr, ?_, ?_,
      (AssocObject.isRow_congr (reviveRow_entry r)).mpr ⟨cluster, acct, hc, ha, hnamed⟩,
      reviveRow object cluster acct now p, List.mem_map_of_mem hp, ?_, ?_, ?_, ?_⟩
    · rw [reviveRow_entry, hre]
    · rw [reviveRow_named now hnamed]
      exact Nat.zero_ne_one
    · rw [reviveRow_entry]
      exact hpu
    · unfold AssocObject.parentName
      rw [reviveRow_entry, ha]
      exact hpa
    · rw [reviveRow_span, reviveRow_span]
      exact hin
    · rw [reviveRow_entry, below_recolumn reviveRow_span]
      exact hor

end Revive

/-! ## Moved rows -/

section MovedRow

variable {t : Table} {x q : Row} {updateList : List (AssocObject × Nat)}

/-- The row named by the columns of a deleted row is around it. -/
theorem Filed.parent (h : Accounts t) (hx : x ∈ t) (hroot : ¬(x.acct = "root" ∧ x.user = ""))
    (hq : q ∈ t) (hin : Inside q.span x.span) (hfiled : Filed t x) :
    ∃ p ∈ t, p.user = "" ∧ p.acct = x.parentAcct ∧ Below t x p := by
  obtain ⟨p, hp, hpu, hpa, hbelow⟩ := hfiled.resolve_left hroot
  refine ⟨p, hp, hpu, ?_, hbelow⟩
  have hxu := h.carriers q hq x hx hin
  rw [hpa]
  unfold Row.parentName
  rw [if_neg fun hc => hc.1 hxu]

/-- A deleted row takes its new place, and what was added keeps its own. -/
theorem settled_moveParent (h : Accounts t) (hx : x ∈ t) (hq : q ∈ t) (hqu : q.user = "")
    (hqc : q.cluster = x.cluster) (hqx : q ≠ x) (hdel : x.deleted ≠ 0)
    (hroot : ¬(x.acct = "root" ∧ x.user = ""))
    (hfiled : ∀ r ∈ t, r.deleted ≠ 0 → Filed t r)
    (hadded : ∀ u ∈ updateList, Attached t u.1 u.2)
    (hkeep : ∀ u ∈ updateList, u.2 = q.id → Inside q.span x.span → u.1.parentName = "root")
    (now : Int) :
    ∃ t', moveParent x.lft x.rgt x.cluster x.id x.parentAcct q.acct now t = (t', true) ∧
      Settled t' x q.acct updateList ∧ ∀ r' ∈ t', ∃ r ∈ t, r'.id = r.id := by
  have hwf := h.toWellFormed
  have hgone : x.deleted = 1 := by
    have := h.flags x hx
    omega
  have hid : ∀ r ∈ t, ∀ s ∈ t, r.id = s.id → r = s :=
    fun r hr s hs heq => List.inj_on_of_nodup_map h.ids hr hs heq
  by_cases hin : Inside q.span x.span
  · obtain ⟨p, hp, hpu, hpa, hxp⟩ := (hfiled x hx hdel).parent h hx hroot hq hin
    have hpq := not_branch_around hin hxp.1
    obtain ⟨f, g, hrun, hf, -, hg⟩ := moveParent_hit hwf hx hq hqu hqc
      (fun r => (mem_accountsWithin_iff hwf hx hq hqu hqc hqx).trans (and_iff_left hin))
      hqx hp hpu hpq hxp.1 now
    have hpc : p.cluster = q.cluster :=
      ((h.clusters q hq x hx hin).trans (h.clusters x hx p hp hxp.1)).symm
    -- after the first move `q` is no longer below `x`
    have hqb := not_branch_moved hwf hx hq hqx hpq hp hxp.1 hf
    have hmem : ∀ r ∈ t, f r ∈ t.map f := fun r hr => List.mem_map_of_mem hr
    have hentry : ∀ r ∈ t, (f r).toEntry = r.toEntry := fun r hr => (hf.same r hr).entry
    have hentry' : ∀ r ∈ t, (g (f r)).toEntry = r.toEntry :=
      fun r hr => (hg.same (f r) (hmem r hr)).entry.trans (hentry r hr)
    have h₁ : Accounts (t.map f) := hf.accounts h hq hp hpc hpq hpu
    have hqc' : (f q).cluster = (f x).cluster := by
      rw [hentry q hq, hentry x hx]
      exact hqc
    refine ⟨(t.map f).map g, ?_, ⟨?_, ?_, ?_, ?_⟩, ?_⟩
    · rw [← hpa]
      exact hrun
    · refine hg.accounts h₁ (hmem x hx) (hmem q hq) hqc' hqb ?_
      rw [hentry q hq]
      exact hqu
    · refine List.forall_mem_map.mpr (List.forall_mem_map.mpr fun r hr hrx hrd => ?_)
      rw [hentry' r hr] at hrx
      rw [(hg.same (f r) (hmem r hr)).deleted, (hf.same r hr).deleted] at hrd
      have hne : f r ≠ f x := by
        intro heq
        rw [← hentry r hr, heq, hentry x hx] at hrx
        exact hrx rfl
      refine hg.filed h₁ (hmem x hx) (hmem q hq) hqb (hmem r hr) hne ?_ ?_
      · rw [hentry r hr]
        exact hrx
      · by_cases hrq : r = q
        · -- the new parent is below the old one, and says so
          subst hrq
          refine Or.inr ⟨f p, hmem p hp, ?_, ?_, ?_⟩
          · rw [hentry p hp]
            exact hpu
          · have hname := hf.name (by
              have := hin.1
              have := hxp.1.1
              simp only [Row.span_lft] at *
              omega) r hr rfl
            unfold Row.parentName
            rw [hentry p hp, hentry r hr, if_neg fun hc => hc.1 hqu, hname]
          · exact (hf.below hwf hq hp hpq hr hp).mpr (by rw [if_pos rfl])
        · exact hf.filed h hq hp hpq hr hrq (fun heq => hrq (hid r hr q hq heq)) (hfiled r hr hrd)
    · intro u hu
      refine hg.placed h₁ (hmem x hx) (hmem q hq) hqc' hqb (hf.placed h hq hp hpc hpq
        (hadded u hu) fun heq _ => hkeep u hu heq.symm hin) fun _ hne => ?_
      rw [(hf.same x hx).deleted] at hne
      exact absurd hgone hne
    · have hbelow := (hg.below h₁.toWellFormed (hmem x hx) (hmem q hq) hqb (hmem x hx)
        (hmem q hq)).mpr (by rw [if_pos rfl])
      refine ⟨g (f x), List.mem_map_of_mem (hmem x hx), hentry' x hx, g (f q),
        List.mem_map_of_mem (hmem q hq), ?_, ?_, hbelow.1, Or.inr hbelow⟩
      · rw [hentry' q hq]
        exact hqu
      · rw [hentry' q hq]
    · exact List.forall_mem_map.mpr (List.forall_mem_map.mpr fun r hr =>
        ⟨r, hr, congrArg Entry.id (hentry' r hr)⟩)
  · have hqb : ¬Branch x.span q.span := by
      rintro (heq | hqx')
      · exact hqx (h.span_inj hq hx heq)
      · exact hin hqx'
    -- one move is enough
    obtain ⟨f, hrun, hf⟩ := moveParent_miss hwf hx hq hqu hqc
      (fun r hr => hin ((mem_accountsWithin_iff hwf hx hq hqu hqc hqx).mp hr).2) hqb
      x.parentAcct now
    have hentry : ∀ r ∈ t, (f r).toEntry = r.toEntry := fun r hr => (hf.same r hr).entry
    refine ⟨t.map f, hrun, ⟨hf.accounts h hx hq hqc hqb hqu, ?_, ?_, ?_⟩, ?_⟩
    · refine List.forall_mem_map.mpr fun r hr hrx hrd => ?_
      rw [hentry r hr] at hrx
      rw [(hf.same r hr).deleted] at hrd
      exact hf.filed h hx hq hqb hr (fun heq => hrx (congrArg (fun r : Row => r.id) heq)) hrx
        (hfiled r hr hrd)
    · exact fun u hu => hf.placed h hx hq hqc hqb (hadded u hu) fun _ hne => absurd hgone hne
    · have hbelow := (hf.below hwf hx hq hqb hx hq).mpr (by rw [if_pos rfl])
      refine ⟨f x, List.mem_map_of_mem hx, hentry x hx, f q, List.mem_map_of_mem hq, ?_, ?_,
        hbelow.1, Or.inr hbelow⟩
      · rw [hentry q hq]
        exact hqu
      · rw [hentry q hq]
    · exact List.forall_mem_map.mpr fun r hr => ⟨r, hr, congrArg Entry.id (hentry r hr)⟩

end MovedRow

/-! ## The condition -/

/-- The row keeps its place when it is revived. -/
def AssocObject.Stays (object : AssocObject) (row : Row) : Prop :=
  object.parentAcct = none ∨ object.parentAcct = some row.parentAcct

/-- A deleted row that can be revived: not the root, in place only below the
account it is to be below, and moved only to another account, before any row is
inserted, and without taking away an account that was added. -/
structure Revivable (s : AddState) (object : AssocObject) (row : Row) : Prop where
  root : ¬(row.acct = "root" ∧ row.user = "")
  stays : object.Stays row →
    object.parentName = "root" ∨ object.parentName = row.parentName
  moves : ¬object.Stays row → s.incr = 0 ∧
    ∃ q ∈ s.t, q.user = "" ∧ q.acct = object.parentName ∧ q.cluster = row.cluster ∧ q ≠ row ∧
      ∀ u ∈ s.updateList, u.2 = q.id → Inside q.span row.span → u.1.parentName = "root"

/-- An association whose user has a name, that names no row still to be shifted
and none that cannot be revived. -/
structure StepOk (s : AddState) (object : AssocObject) : Prop where
  user : object.user ≠ some ""
  shifted : ∀ r ∈ s.t, object.isRow r → r.deleted < 2
  revived : ∀ row ∈ s.t, object.isRow row → row.deleted ≠ 0 → Revivable s object row

/-- `addStep` as a step that can end the loop. -/
def nextState (now : Int) (s : AddState) (object : AssocObject) : Option AddState :=
  match addStep now object s with
  | (s, true) => some s
  | (_, false) => none

/-! ## Steps and runs -/

/-- A root is around every other row. -/
theorem Accounts.inside_root {t : Table} {r : Row} (h : Accounts t) (hr : r ∈ t)
    (hroot : ¬(r.acct = "root" ∧ r.user = "")) :
    ∃ c ∈ t, c.user = "" ∧ c.acct = "root" ∧ Inside r.span c.span := by
  obtain ⟨c, hc, hcr, hca, hcu⟩ := h.rooted r hr
  refine ⟨c, hc.1, hcu, hca, (hc.2 r hr hcr.symm).resolve_left fun heq => ?_⟩
  rw [h.span_inj hr hc.1 heq] at hroot
  exact hroot ⟨hca, hcu⟩

theorem AssocObject.names_cluster {object : AssocObject} {cluster acct : String} {r : Row}
    (h : object.names cluster acct r = true) : r.cluster = cluster := by
  unfold AssocObject.names at h
  simp only [Bool.and_eq_true, decide_eq_true_eq] at h
  exact h.1.1

theorem Ready.withRc {s : AddState} (h : Ready s) (rc : Bool) : Ready { s with rc := rc } :=
  ⟨⟨h.accounts, h.ids, h.incr, h.waiting, h.filed, h.added⟩, h.fresh, h.target⟩

/-- After the shift the next place can be behind any left end. -/
theorem Meant.shifted {s : AddState} (h : Meant s) (myLeft : Int)
    (oldParent oldCluster : Option String) :
    Meant { s with
      t := s.flushed, incr := 0, myLeft := myLeft, oldParent := oldParent,
      oldCluster := oldCluster } := by
  have hlow : ∀ r ∈ s.flushed, Waiting 0 myLeft r := by
    rw [h.flushed_eq]
    exact fun r hr => Or.inl (h.accounts.flags r hr)
  have hflush : flush 0 myLeft s.flushed = flush s.incr s.myLeft s.t := by
    rw [flush_zero rfl hlow, h.flushed_eq]
  refine ⟨?_, ?_, le_refl _, hlow, ?_, ?_⟩
  · exact hflush ▸ h.accounts
  · show ∀ r ∈ s.flushed, r.id < s.nextId
    rw [h.flushed_eq, flush_eq_map]
    refine List.forall_mem_map.mpr fun r hr => ?_
    rw [flushRow_entry]
    exact h.ids r hr
  · show ∀ r ∈ flush 0 myLeft s.flushed, r.deleted ≠ 0 → Filed (flush 0 myLeft s.flushed) r
    rw [hflush]
    exact h.filed
  · show ∀ u ∈ s.updateList, Attached (flush 0 myLeft s.flushed) u.1 u.2
    rw [hflush]
    exact h.added

section Step

variable {s : AddState} {object : AssocObject} {cluster acct : String} {row : Row}
variable (h : Ready s) (hok : StepOk s object) (hc : object.cluster = some cluster)
variable (ha : object.acct = some acct) (hrow : row ∈ s.t)
variable (hname : object.names cluster acct row = true) (hdel : row.deleted ≠ 0)
include h hok hc ha hrow hname hdel

/-- A row is revived where it is. -/
theorem Ready.reviveStay (hstay : object.Stays row) (now : Int) :
    Ready { s with
      t := revive object cluster acct now s.t
      rc := true
      updateList := s.updateList ++ [(object, row.id)] } := by
  have hrevived := hok.revived row hrow ⟨cluster, acct, hc, ha, hname⟩ hdel
  have hlow : ∀ r ∈ s.t, object.names cluster acct r = true → r.deleted < 2 :=
    fun r hr hr' => hok.shifted r hr ⟨cluster, acct, hc, ha, hr'⟩
  have hparent : object.parentName = object.parent acct := by
    unfold AssocObject.parentName
    rw [ha]
    rfl
  have hfrow : flushRow s.incr s.myLeft row ∈ flush s.incr s.myLeft s.t := by
    rw [flush_eq_map]
    exact List.mem_map_of_mem hrow
  have hroot : ¬((flushRow s.incr s.myLeft row).acct = "root" ∧
      (flushRow s.incr s.myLeft row).user = "") := by
    rw [flushRow_entry]
    exact hrevived.root
  -- the row stays where it is, so its old parent is the one asked for
  have hsettled : Settled (flush s.incr s.myLeft s.t) row (object.parent acct) s.updateList := by
    refine ⟨h.accounts, fun r hr _ => h.filed r hr, h.added, flushRow s.incr s.myLeft row, hfrow,
      flushRow_entry _ _ row, ?_⟩
    obtain hpr | hpr := hrevived.stays hstay
    · obtain ⟨c, hc, hcu, hca, hin⟩ := h.accounts.inside_root hfrow hroot
      exact ⟨c, hc, hcu, by rw [hca, ← hparent, hpr], hin, Or.inl hca⟩
    · have hfdel : (flushRow s.incr s.myLeft row).deleted ≠ 0 := by
        rw [flushRow_old (hlow row hrow hname)]
        exact hdel
      obtain ⟨p, hp, hpu, hpa, hbelow⟩ := (h.filed _ hfrow hfdel).resolve_left hroot
      refine ⟨p, hp, hpu, ?_, hbelow.1, Or.inr hbelow⟩
      rw [hpa, ← hparent, hpr]
      unfold Row.parentName
      rw [flushRow_entry, flushRow_parentAcct]
  have hflush := @flush_revive object cluster acct now s.incr s.myLeft s.t hlow
  refine ⟨⟨?_, ?_, h.incr, ?_, ?_, ?_⟩, h.fresh, ?_⟩
  · exact hflush ▸ hsettled.accounts_revive
  · refine forall_mem_revive.mpr fun r hr => ?_
    rw [reviveRow_entry]
    exact h.ids r hr
  · refine forall_mem_revive.mpr fun r hr => ?_
    obtain hzero | hsame := reviveRow_deleted object cluster acct now r
    · left
      rw [hzero]
      exact Nat.two_pos
    · rw [hsame]
      exact h.waiting r hr
  · show ∀ r ∈ flush s.incr s.myLeft (revive object cluster acct now s.t), r.deleted ≠ 0 →
      Filed (flush s.incr s.myLeft (revive object cluster acct now s.t)) r
    rw [hflush]
    exact hsettled.filed_revive hname
  · show ∀ u ∈ s.updateList ++ [(object, row.id)],
      Attached (flush s.incr s.myLeft (revive object cluster acct now s.t)) u.1 u.2
    rw [hflush]
    exact hsettled.added_revive hc ha hname
  · intro parent cluster' hp hpc
    obtain ⟨q, hq, hqu, hqa, hqc, hql, hqd⟩ := h.target parent cluster' hp hpc
    refine ⟨reviveRow object cluster acct now q, List.mem_map_of_mem hq, ?_, ?_, ?_, ?_, ?_⟩
    · rw [reviveRow_entry]
      exact hqu
    · rw [reviveRow_entry]
      exact hqa
    · rw [reviveRow_entry]
      exact hqc
    · exact (congrArg Span.lft (reviveRow_span q)).trans hql
    · obtain hzero | hsame := reviveRow_deleted object cluster acct now q
      · rw [hzero]
        exact Nat.two_pos
      · rw [hsame]
        exact hqd

/-- A row is moved below its new parent and revived. -/
theorem Ready.reviveMoved (hmove : ¬object.Stays row) (now : Int) :
    ∃ t', moveParent row.lft row.rgt cluster row.id row.parentAcct object.parentName now s.t =
        (t', true) ∧
      Ready { s with
        t := revive object cluster acct now t'
        rc := true
        updateList := s.updateList ++ [(object, row.id)] } := by
  have hrevived := hok.revived row hrow ⟨cluster, acct, hc, ha, hname⟩ hdel
  obtain ⟨hincr, q, hq, hqu, hqa, hqc, hqx, hkeep⟩ := hrevived.moves hmove
  have hflush : flush s.incr s.myLeft s.t = s.t := flush_zero hincr h.waiting
  have haccounts := h.accounts
  have hfiled := h.filed
  have hadded := h.added
  rw [hflush] at haccounts hfiled hadded
  obtain ⟨t', hrun, hsettled, hids⟩ := settled_moveParent haccounts hrow hq hqu hqc hqx hdel
    hrevived.root hfiled hadded hkeep now
  have hparent : object.parentName = object.parent acct := by
    unfold AssocObject.parentName
    rw [ha]
    rfl
  rw [hqa, AssocObject.names_cluster hname] at hrun
  rw [hqa, hparent] at hsettled
  have haccounts' : Accounts (revive object cluster acct now t') := hsettled.accounts_revive
  have hwaiting : ∀ r ∈ revive object cluster acct now t', Waiting s.incr s.myLeft r :=
    fun r hr => Or.inl (haccounts'.flags r hr)
  have hflush' := flush_zero hincr hwaiting
  refine ⟨t', hrun, ⟨⟨?_, ?_, h.incr, hwaiting, ?_, ?_⟩, h.fresh, ?_⟩⟩
  · exact hflush'.symm ▸ haccounts'
  · refine forall_mem_revive.mpr fun r' hr' => ?_
    obtain ⟨r, hr, hid⟩ := hids r' hr'
    rw [reviveRow_entry, hid]
    exact h.ids r hr
  · show ∀ r ∈ flush s.incr s.myLeft (revive object cluster acct now t'), r.deleted ≠ 0 →
      Filed (flush s.incr s.myLeft (revive object cluster acct now t')) r
    rw [hflush']
    exact hsettled.filed_revive hname
  · show ∀ u ∈ s.updateList ++ [(object, row.id)],
      Attached (flush s.incr s.myLeft (revive object cluster acct now t')) u.1 u.2
    rw [hflush']
    exact hsettled.added_revive hc ha hname
  · intro parent cluster' hp _
    have hnone := h.fresh hincr
    rw [hnone] at hp
    cases hp

end Step

theorem Ready.step {s s' : AddState} {object : AssocObject} {now : Int} (h : Ready s)
    (hok : StepOk s object) (hstep : nextState now s object = some s') : Ready s' := by
  unfold nextState addStep at hstep
  cases hc : object.cluster with
  | none =>
    rw [hc] at hstep
    obtain rfl := Option.some.inj hstep
    exact h.withRc false
  | some cluster =>
    cases ha : object.acct with
    | none =>
      rw [hc, ha] at hstep
      obtain rfl := Option.some.inj hstep
      exact h.withRc false
    | some acct =>
      rw [hc, ha] at hstep
      simp only at hstep
      cases hfind : firstRow (object.names cluster acct) s.t with
      | none =>
        have hnone := firstRow_none hfind
        rw [hfind] at hstep
        simp only at hstep
        -- a new row goes to the place kept for its parent, or the place is looked up
        by_cases hsame : s.oldParent = some (object.parent acct) ∧ s.oldCluster = some cluster
        · rw [if_pos hsame] at hstep
          obtain rfl := Option.some.inj hstep
          exact h.toMeant.insertRow now hok.user hc ha hnone hsame.1 hsame.2
            (h.target _ _ hsame.1 hsame.2)
        · rw [if_neg hsame] at hstep
          cases hpar : firstRow (fun r => r.acct = object.parent acct ∧ r.cluster = cluster ∧
              r.user = "") s.flushed with
          | none =>
            rw [hpar] at hstep
            cases hstep
          | some row =>
            rw [hpar] at hstep
            obtain rfl := Option.some.inj hstep
            obtain ⟨hrow, hrow'⟩ := mem_firstRow hpar
            simp only [decide_eq_true_eq] at hrow'
            refine (h.toMeant.shifted row.lft _ _).insertRow now hok.user hc ha ?_ rfl rfl
              ⟨row, hrow, hrow'.2.2, hrow'.1, hrow'.2.1, rfl, ?_⟩
            · show ∀ r ∈ s.flushed, object.names cluster acct r = false
              rw [h.flushed_eq, flush_eq_map]
              refine List.forall_mem_map.mpr fun r hr => ?_
              have := hnone r hr
              unfold AssocObject.names at this ⊢
              rw [flushRow_entry]
              exact this
            · rw [h.flushed_eq] at hrow
              exact h.accounts.flags row hrow
      | some row =>
        obtain ⟨hrow, hname⟩ := mem_firstRow hfind
        rw [hfind] at hstep
        simp only at hstep
        -- the row is there: nothing to do, or a deleted one comes back
        by_cases hdel : row.deleted = 0
        · rw [if_pos hdel] at hstep
          obtain rfl := Option.some.inj hstep
          exact h
        · rw [if_neg hdel] at hstep
          by_cases hstay : object.Stays row
          · have hrun : (match object.parentAcct with
                | none => (s.t, true)
                | some parentAcct =>
                  if parentAcct = row.parentAcct then (s.t, true)
                  else
                    moveParent row.lft row.rgt cluster row.id row.parentAcct parentAcct now s.t) =
                (s.t, true) := by
              obtain hp | hp := hstay
              · rw [hp]
              · rw [hp]
                exact if_pos rfl
            rw [hrun] at hstep
            obtain rfl := Option.some.inj hstep
            exact h.reviveStay hok hc ha hrow hname hdel hstay now
          · obtain ⟨t', hmove, hready⟩ := h.reviveMoved hok hc ha hrow hname hdel hstay now
            have hrun : (match object.parentAcct with
                | none => (s.t, true)
                | some parentAcct =>
                  if parentAcct = row.parentAcct then (s.t, true)
                  else
                    moveParent row.lft row.rgt cluster row.id row.parentAcct parentAcct now s.t) =
                (t', true) := by
              cases hp : object.parentAcct with
              | none => exact absurd (Or.inl hp) hstay
              | some parentAcct =>
                have hne : parentAcct ≠ row.parentAcct := fun heq => hstay (Or.inr (heq ▸ hp))
                have hname : object.parentName = parentAcct := by
                  unfold AssocObject.parentName AssocObject.parent
                  rw [hp]
                rw [hname] at hmove
                simp only
                rw [if_neg hne]
                exact hmove
            rw [hrun] at hstep
            obtain rfl := Option.some.inj hstep
            exact hready

/-- A loop that succeeds takes every step. -/
theorem addLoop_run {now : Int} {objects : List AssocObject} :
    ∀ {s : AddState}, (addLoop now objects s).rc = true →
      run (nextState now) s objects = some (addLoop now objects s) := by
  induction objects with
  | nil => exact fun _ => rfl
  | cons object objects ih =>
    intro s hrc
    unfold addLoop at hrc ⊢
    unfold run nextState
    have hfail : ∀ s', addStep now object s = (s', false) → s'.rc = false := by
      intro s' hs'
      unfold addStep at hs'
      grind
    cases hs : addStep now object s with
    | mk s' more =>
      rw [hs] at hrc
      cases more with
      | false =>
        simp only at hrc
        rw [hfail s' hs] at hrc
        cases hrc
      | true => exact ih hrc

/-- What an addition is for. -/
structure Added (t : Table) (updateList : List (AssocObject × Nat)) : Prop where
  nested : Nested (spans t)
  flags : ∀ r ∈ t, r.deleted < 2
  inside : ∀ u ∈ updateList, ∃ r ∈ t, r.id = u.2 ∧ u.1.isRow r ∧
    ∃ p ∈ t, p.user = "" ∧ p.acct = u.1.parentName ∧ p.cluster = r.cluster ∧ Inside r.span p.span

theorem Ready.done {s : AddState} (h : Ready s) : Added s.flushed s.updateList := by
  rw [h.flushed_eq]
  refine ⟨h.accounts.nested, h.accounts.flags, fun u hu => ?_⟩
  obtain ⟨r, hr, hri, -, hrow, p, hp, hpu, hpa, hin, -⟩ := h.added u hu
  exact ⟨r, hr, hri, hrow, p, hp, hpu, hpa, (h.accounts.clusters r hr p hp hin).symm, hin⟩

theorem Ready.start {t : Table} {nextId : Nat} (h : Accounts t) (hids : ∀ r ∈ t, r.id < nextId)
    (hfiled : ∀ r ∈ t, r.deleted ≠ 0 → Filed t r) : Ready { t := t, nextId := nextId } := by
  have hwaiting : ∀ r ∈ t, Waiting 0 0 r := fun r hr => Or.inl (h.flags r hr)
  have hflush : flush 0 0 t = t := flush_zero rfl hwaiting
  refine ⟨⟨?_, hids, le_refl _, hwaiting, ?_, fun u hu => absurd hu List.not_mem_nil⟩,
    fun _ => rfl, fun _ _ hp => ?_⟩
  · exact hflush.symm ▸ h
  · show ∀ r ∈ flush 0 0 t, r.deleted ≠ 0 → Filed (flush 0 0 t) r
    rw [hflush]
    exact hfiled
  · cases hp

/-- An addition whose steps meet the condition leaves the trees in order with
what was added below its parents. -/
theorem addAssociations_added {t t' : Table} {nextId : Nat} {objects : List AssocObject}
    {updateList : List (AssocObject × Nat)} {now : Int} (h : Accounts t)
    (hids : ∀ r ∈ t, r.id < nextId) (hfiled : ∀ r ∈ t, r.deleted ≠ 0 → Filed t r)
    (hguard : Guarded (nextState now) StepOk { t := t, nextId := nextId } objects)
    (hadd : addAssociations now objects nextId t = some (t', updateList)) :
    Added t' updateList := by
  unfold addAssociations at hadd
  simp only at hadd
  by_cases hrc : (addLoop now objects { t := t, nextId := nextId }).rc = true
  · rw [if_pos hrc] at hadd
    obtain ⟨rfl, rfl⟩ := Prod.mk.inj (Option.some.inj hadd)
    have hstep : ∀ s object s', Ready s → StepOk s object → nextState now s object = some s' →
        Ready s' := fun _ _ _ hs hok hnext => hs.step hok hnext
    exact (reached_of_guarded hstep (Ready.start h hids hfiled) hguard (addLoop_run hrc)).done
  · rw [if_neg hrc] at hadd
    cases hadd

/-- A table with a deleted account. -/
def revivable : Table :=
  [{ id := 1, acct := "root", cluster := "tux", lft := 1, rgt := 6 },
    { id := 2, acct := "a", cluster := "tux", parentAcct := "root", deleted := 1, lft := 2,
      rgt := 3 },
    { id := 3, acct := "b", cluster := "tux", parentAcct := "root", lft := 4, rgt := 5 }]

/-- The account `a` below `b`, then a user of it. -/
def objects : List AssocObject :=
  [{ cluster := some "tux", acct := some "a", parentAcct := some "b" },
    { cluster := some "tux", acct := some "a", user := some "u" }]

theorem accounts_of_root {t : Table} {c : Row} (h : WellFormed t) (hc : IsRoot t c)
    (hca : c.acct = "root") (hcu : c.user = "") (hall : ∀ r ∈ t, c.cluster = r.cluster)
    (hcarriers : ∀ r ∈ t, ∀ s ∈ t, Inside r.span s.span → s.user = "") : Accounts t :=
  ⟨h, fun r hr => ⟨c, hc, hall r hr, hca, hcu⟩, hcarriers⟩

theorem addAssociations_added_revivable :
    ∃ t' updateList, addAssociations 9 objects 4 revivable = some (t', updateList) ∧
      t'.length = 4 ∧ Added t' updateList := by
  have hroot : IsRoot revivable revivable[0] := by
    unfold IsRoot
    decide +kernel
  have haccounts : Accounts revivable :=
    accounts_of_root (by decide +kernel) hroot rfl rfl (by decide +kernel) (by decide +kernel)
  have hfiled : ∀ r ∈ revivable, r.deleted ≠ 0 → Filed revivable r := by
    have hlook : ∀ r ∈ revivable, r.deleted ≠ 0 → ∃ p ∈ revivable, p.user = "" ∧
        p.acct = r.parentName ∧ Below revivable r p := by decide +kernel
    exact fun r hr hdel => Or.inr (hlook r hr hdel)
  have hguard : Guarded (nextState 9) StepOk { t := revivable, nextId := 4 } objects := by
    refine ⟨⟨by decide, ?_, ?_⟩, fun s hs => ⟨⟨by decide, ?_, ?_⟩, fun _ _ => trivial⟩⟩
    · have hlow : ∀ r ∈ revivable, r.deleted < 2 := by decide +kernel
      exact fun r hr _ => hlow r hr
    · intro row hrow _ hdel
      have hrow' : ∀ row ∈ revivable, row.deleted ≠ 0 → row = revivable[1] := by decide +kernel
      obtain rfl := hrow' row hrow hdel
      refine ⟨by decide +kernel, fun hstay => ?_, fun _ => ⟨rfl, revivable[2], ?_⟩⟩
      · obtain hp | hp := hstay
        · cases hp
        · exact absurd hp (by decide)
      · exact ⟨by decide +kernel, rfl, rfl, rfl, by decide +kernel,
          fun u hu => absurd hu List.not_mem_nil⟩
    · obtain rfl := Option.some.inj hs
      have hlow : ∀ r ∈ (addStep 9 objects[0] { t := revivable, nextId := 4 }).1.t,
          r.deleted < 2 := by decide +kernel
      exact fun r hr _ => hlow r hr
    · obtain rfl := Option.some.inj hs
      have hlow : ∀ r ∈ (addStep 9 objects[0] { t := revivable, nextId := 4 }).1.t,
          r.deleted = 0 := by decide +kernel
      exact fun r hr _ hdel => absurd (hlow r hr) hdel
  obtain ⟨t', updateList, hadd⟩ : ∃ t' updateList,
      addAssociations 9 objects 4 revivable = some (t', updateList) := ⟨_, _, rfl⟩
  refine ⟨t', updateList, hadd, ?_, addAssociations_added haccounts (by decide +kernel) hfiled
    hguard hadd⟩
  have hlen : (addAssociations 9 objects 4 revivable).map (fun p => p.1.length) = some 4 := by
    decide +kernel
  rw [hadd] at hlen
  exact Option.some.inj hlen

/-- The root alone. -/
def alone : Table := [{ id := 1, acct := "root", cluster := "tux", lft := 1, rgt := 2 }]

/-- An account below the root. -/
def accountA : AssocObject := { cluster := some "tux", acct := some "a" }

/-- A new account given twice is shifted out of the root. -/
theorem addAssociations_twice :
    ¬∀ (t t' : Table) (nextId : Nat) (objects : List AssocObject)
      (updateList : List (AssocObject × Nat)) (now : Int), Accounts t →
      (∀ r ∈ t, r.id < nextId) → (∀ r ∈ t, r.deleted ≠ 0 → Filed t r) →
      addAssociations now objects nextId t = some (t', updateList) → Added t' updateList := by
  intro hall
  have hroot : IsRoot alone alone[0] := by
    unfold IsRoot
    decide +kernel
  have haccounts : Accounts alone :=
    accounts_of_root (by decide +kernel) hroot rfl rfl (by decide +kernel) (by decide +kernel)
  have hlow : ∀ r ∈ alone, r.deleted = 0 := by decide +kernel
  have hadded := hall alone _ 2 [accountA, accountA] _ 9 haccounts (by decide +kernel)
    (fun r hr hdel => absurd (hlow r hr) hdel) rfl
  exact absurd hadded.nested (by decide +kernel)

end Slurm.AssocTable
