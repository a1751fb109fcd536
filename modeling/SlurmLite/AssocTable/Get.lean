import SlurmLite.AssocTable.Add
import SlurmLite.CharList
import SlurmLite.Base.CLib

/-!
# The associations that are read back

`acct_storage_p_get_associations` completes each row it returns by what the
accounts above it say. A stored procedure walks up the accounts, its result is
kept from row to row while the parent is the same.

* **The walk** (`getParentLimits`): a pass for each account on the way up.
* **The loop** (`getAssociations`): the row, the cache and the deltas of the QOS.
* **What is meant** (`ancestors`, `inherited`): the nearest limit on the way to
  the root.
* **The walk is right** (`getParentLimits_spec`), and so is every row but the
  roots, which take over what the row before them inherits
  (`limitsRead_iff`).

The `grp_` limits, the usage and the privacy of users are left out.
-/

namespace Slurm.AssocTable

open Base.NestedSets Base.CLib Slurm.CharList

/-! ## The limits -/

/-- The limits for each job that an association inherits. -/
inductive PerJob where
  | maxJobs
  | maxSubmitJobs
  | maxCpusPj
  | maxNodesPj
  | maxWallPj
  | maxCpuMinsPj
deriving DecidableEq

instance : Fintype PerJob where
  elems := {.maxJobs, .maxSubmitJobs, .maxCpusPj, .maxNodesPj, .maxWallPj, .maxCpuMinsPj}
  complete l := by cases l <;> decide

/-- The column of a limit. -/
def Limits.get (r : Limits) : PerJob → Option Int
  | .maxJobs => r.maxJobs
  | .maxSubmitJobs => r.maxSubmitJobs
  | .maxCpusPj => r.maxCpusPerJob
  | .maxNodesPj => r.maxNodesPerJob
  | .maxWallPj => r.maxWallDurationPerJob
  | .maxCpuMinsPj => r.maxCpuMinsPerJob

abbrev INFINITE : Nat := 0xffffffff

/-- A column of the association in the type of its field. -/
def PerJob.field (l : PerJob) (v : Int) : Nat :=
  match l with
  | .maxCpuMinsPj => ulong v
  | _ => uint32 v

/-- A column of the association itself: `atoi`, also for `max_cpu_mins_pj`. -/
def PerJob.atoi (l : PerJob) (v : Int) : Nat := l.field (int32 v)

/-- A column that the procedure found: `atoi`, and `atoll` for `max_cpu_mins_pj`. -/
def PerJob.parent (l : PerJob) (v : Int) : Nat :=
  match l with
  | .maxCpuMinsPj => ulong v
  | l => l.atoi v

/-! ## The stored procedure -/

/-- The session variables of `get_parent_limits`. -/
structure ProcVars where
  parId : Option Nat := none
  /-- `@mj`, `@msj`, `@mcpj`, `@mnpj`, `@mwpj` and `@mcmpj`. -/
  limits : PerJob → Option Int := fun _ => none
  qos : String := ""
  deltaQos : String := ""
  myAcct : String

/-- One pass of the loop: what is not set yet is taken from the account's row. -/
def ProcVars.pass (cluster : String) (t : Table) (s : ProcVars) : ProcVars :=
  match t.find? fun r => r.cluster = cluster ∧ r.acct = s.myAcct ∧ r.user = "" with
  | none => s
  | some row =>
    { parId := s.parId.or (some row.id)
      limits := fun l => (s.limits l).or (row.get l)
      qos := if s.qos = "" then row.qos else s.qos
      deltaQos := if s.qos = "" then row.deltaQos ++ s.deltaQos else s.deltaQos
      myAcct := row.parentAcct }

/-- `@mj != -1`, which is not true of `NULL`. -/
def isSet (v : Option Int) : Bool :=
  match v with
  | none => false
  | some v => v ≠ -1

/-- The test after `UNTIL`. -/
def ProcVars.done (s : ProcVars) : Bool :=
  (isSet (s.limits .maxJobs) && isSet (s.limits .maxSubmitJobs) && isSet (s.limits .maxCpusPj) &&
    isSet (s.limits .maxNodesPj) && isSet (s.limits .maxWallPj) &&
    isSet (s.limits .maxCpuMinsPj) && s.qos ≠ "") || s.myAcct = ""

/-- `REPEAT`, for at most `fuel` passes. -/
def ProcVars.repeatUntil (cluster : String) (t : Table) : Nat → ProcVars → Option ProcVars
  | 0, _ => none
  | fuel + 1, s =>
    let s := s.pass cluster t
    if s.done then some s else ProcVars.repeatUntil cluster t fuel s

/-- `get_parent_limits` with the limits. -/
def getParentLimits (fuel : Nat) (acct cluster : String) (t : Table) : Option ProcVars :=
  ProcVars.repeatUntil cluster t fuel { myAcct := acct }

/-! ## The loop over the rows -/

/-- What is kept from row to row. -/
structure Cache where
  parentId : Nat := 0
  limits : PerJob → Nat := fun _ => INFINITE
  qos : Option Text := none
  deltaQos : Option Text := none
  lastAcct : Option String := none
  lastCluster : Option String := none

/-- The values of the procedure. -/
def Cache.ofVars (vars : ProcVars) (parentAcct cluster : String) : Cache where
  parentId := vars.parId.getD 0
  limits := fun l =>
    match vars.limits l with
    | some v => l.parent v
    | none => INFINITE
  qos := if vars.qos = "" then none else some vars.qos.toList
  deltaQos := if vars.deltaQos = "" then none else some vars.deltaQos.toList
  lastAcct := some parentAcct
  lastCluster := some cluster

/-- An `acct_association_rec_t`. -/
structure AssocRec where
  id : Nat
  lft : Int
  rgt : Int
  user : Option String
  acct : String
  cluster : String
  partition : Option String
  parentAcct : Option String
  parentId : Nat
  sharesRaw : Int
  limits : PerJob → Nat
  qosList : List Text

/-- A text column without its first character, `none` when it is empty. -/
def entries (text : String) : Option Text :=
  match text.toList with
  | [] => none
  | _ :: names => some names

/-- `slurm_addto_char_list`, unless there is nothing to add. -/
def addSome (list : List Text) : Option Text → List Text
  | none => list
  | some names => addtoCharList list names

/-- One entry of the delta list. -/
def applyEntry (qosList : List Text) : Text → List Text
  | '-' :: qos => qosList.erase qos
  | '+' :: qos => if qos ∈ qosList then qosList else qosList ++ [qos]
  | _ => qosList

/-- The QOS of an association. -/
def qosOf (withRawQos : Bool) (qos deltaQos : String) (parentQos parentDeltaQos : Option Text) :
    List Text :=
  match entries qos with
  | some names => addtoCharList [] names
  | none =>
    let qosList := addSome [] (parentQos.map (List.drop 1))
    let deltaQosList := addSome (addSome [] (parentDeltaQos.map (List.drop 1))) (entries deltaQos)
    if withRawQos then qosList ++ deltaQosList else deltaQosList.foldl applyEntry qosList

/-- The name of the parent of a row, if it has one. -/
def Row.above (r : Row) : Option String :=
  if r.parentAcct ≠ "" then some r.parentAcct
  else if r.user = "" then none
  else some r.acct

/-- The cache when a row is completed; `none` when the procedure does not return. -/
def Cache.refresh (fuel : Nat) (t : Table) (row : Row) (c : Cache) : Option Cache :=
  match row.above with
  | none => some { c with parentId := 0 }
  | some parentAcct =>
    if c.lastAcct = some parentAcct ∧ c.lastCluster = some row.cluster then some c
    else (getParentLimits fuel parentAcct row.cluster t).map fun vars =>
      .ofVars vars parentAcct row.cluster

/-- The record of a row. -/
def Cache.record (withRawQos : Bool) (row : Row) (c : Cache) : AssocRec where
  id := row.id
  lft := row.lft
  rgt := row.rgt
  user := if row.user = "" then none else some row.user
  acct := row.acct
  cluster := row.cluster
  partition := if row.partition = "" then none else some row.partition
  parentAcct := if row.parentAcct = "" then none else some row.parentAcct
  parentId := c.parentId
  sharesRaw := row.fairshare
  limits := fun l =>
    match row.get l with
    | some v => l.atoi v
    | none => c.limits l
  qosList := qosOf withRawQos row.qos row.deltaQos c.qos c.deltaQos

/-- The loop over the rows. -/
def getLoop (fuel : Nat) (withRawQos : Bool) (t : Table) : List Row → Cache → Option (List AssocRec)
  | [], _ => some []
  | row :: rows, c =>
    match c.refresh fuel t row with
    | none => none
    | some c => (getLoop fuel withRawQos t rows c).map (c.record withRawQos row :: ·)

/-- The rows of the query, `order by cluster, lft`. -/
def rowsOf (sel : Row → Bool) (t : Table) : List Row :=
  (t.filter sel).insertionSort fun r s => r.cluster < s.cluster ∨ r.cluster = s.cluster ∧
    r.lft ≤ s.lft

/-- `acct_storage_p_get_associations` of the rows that a condition selects, with the parents and
their limits; `none` when a call of the procedure takes more than `fuel` passes. -/
def getAssociations (fuel : Nat) (withRawQos : Bool) (sel : Row → Bool) (t : Table) :
    Option (List AssocRec) :=
  getLoop fuel withRawQos t (rowsOf sel t) {}

/-! ## What is meant -/

/-- The accounts above a row, from the nearest on. -/
def ancestors (t : Table) (r : Row) : List Row :=
  (t.filter fun q => Inside r.span q.span).insertionSort fun p q => q.lft ≤ p.lft

/-- The limit of the nearest account above that has one. -/
def fromAbove (t : Table) (r : Row) (l : PerJob) : Option Int :=
  (ancestors t r).findSome? fun q => q.get l

/-- The limit of an association: its own, else the nearest above, else none. -/
def limitMeant (t : Table) (r : Row) (l : PerJob) : Nat :=
  match (r.get l).or (fromAbove t r l) with
  | some v => l.field v
  | none => INFINITE

/-- The row of a root association, as the loop knows it. -/
def Row.isTop (r : Row) : Prop := r.user = "" ∧ r.parentAcct = ""

instance (r : Row) : Decidable r.isTop := inferInstanceAs (Decidable (_ ∧ _))

/-- The values of a column are below this, `bigint` for `max_cpu_mins_per_job`. -/
def PerJob.bound : PerJob → Int
  | .maxCpuMinsPj => 9223372036854775808
  | _ => 2147483648

/-- What `_setup_association_limits` puts in a column. -/
def PerJob.Fits (l : PerJob) (v : Int) : Prop :=
  0 ≤ v ∧ v % 4294967296 < 2147483648 ∧ v < l.bound

/-- Trees of accounts in which every row but the roots names the account above it. -/
structure Tree (t : Table) : Prop extends Accounts t where
  tops : ∀ r ∈ t, r.isTop → IsRoot t r
  filed : ∀ r ∈ t, ¬r.isTop → ∃ p ∈ t, p.user = "" ∧ p.acct = r.parentName ∧ Below t r p
  named : ∀ r ∈ t, r.acct ≠ ""
  fits : ∀ r ∈ t, ∀ l v, r.get l = some v → l.Fits v

instance (l : PerJob) (v : Int) : Decidable (l.Fits v) :=
  inferInstanceAs (Decidable (_ ∧ _ ∧ _))

instance (t : Table) : Decidable (Tree t) :=
  decidable_of_iff (WellFormed t ∧
      (∀ r ∈ t, ∃ c ∈ t, IsRoot t c ∧ c.cluster = r.cluster ∧ c.acct = "root" ∧ c.user = "") ∧
      (∀ r ∈ t, ∀ s ∈ t, Inside r.span s.span → s.user = "") ∧
      (∀ r ∈ t, r.isTop → IsRoot t r) ∧
      (∀ r ∈ t, ¬r.isTop → ∃ p ∈ t, p.user = "" ∧ p.acct = r.parentName ∧ Below t r p) ∧
      (∀ r ∈ t, r.acct ≠ "") ∧ ∀ r ∈ t, ∀ l, ∀ v ∈ r.get l, PerJob.Fits l v)
    ⟨fun ⟨hw, hr, hc, ht, hf, hn, hl⟩ =>
      ⟨⟨hw, fun r hr' => (hr r hr').imp fun _ hc => hc.2, hc⟩, ht, hf, hn, hl⟩,
     fun h => ⟨h.toWellFormed, fun r hr => (h.rooted r hr).imp fun _ hc => ⟨hc.1.1, hc⟩, h.carriers,
      h.tops, h.filed, h.named, h.fits⟩⟩

section Ancestors

variable {t : Table} {r q p : Row}

theorem mem_ancestors : q ∈ ancestors t r ↔ q ∈ t ∧ Inside r.span q.span := by
  unfold ancestors
  rw [List.mem_insertionSort, List.mem_filter, decide_eq_true_eq]

theorem WellFormed.nodup (h : WellFormed t) : t.Nodup := List.Nodup.of_map _ h.ids

theorem WellFormed.nodup_ancestors (h : WellFormed t) (r : Row) : (ancestors t r).Nodup :=
  (List.perm_insertionSort _ _).nodup_iff.mpr (h.nodup.filter _)

theorem ancestors_sorted (t : Table) (r : Row) :
    (ancestors t r).Pairwise fun p q => q.lft ≤ p.lft :=
  List.pairwise_insertionSort _ _

/-- The way up goes on from the account above. -/
theorem ancestors_cons (h : WellFormed t) (hq : q ∈ t) (hb : Below t r q) :
    ancestors t r = q :: ancestors t q := by
  have hmem : ∀ c, c ∈ ancestors t r ↔ c ∈ q :: ancestors t q := by
    intro c
    rw [List.mem_cons, mem_ancestors, mem_ancestors]
    constructor
    · rintro ⟨hc, hin⟩
      exact (hb.2 c.span (mem_spans hc) hin).imp (fun heq => h.span_inj hc hq heq) fun hqc =>
        ⟨hc, hqc⟩
    · rintro (rfl | ⟨hc, hin⟩)
      · exact ⟨hq, hb.1⟩
      · exact ⟨hc, hb.1.trans hin⟩
  have hnodup : (q :: ancestors t q).Nodup := by
    refine List.nodup_cons.mpr ⟨fun hc => ?_, h.nodup_ancestors q⟩
    exact not_inside_self _ (mem_ancestors.mp hc).2
  have hsorted : (q :: ancestors t q).Pairwise fun p q => q.lft ≤ p.lft := by
    refine List.pairwise_cons.mpr ⟨fun c hc => ?_, ancestors_sorted t q⟩
    exact le_of_lt (mem_ancestors.mp hc).2.1
  have hperm : (ancestors t r).Perm (q :: ancestors t q) :=
    (List.perm_ext_iff_of_nodup (h.nodup_ancestors r) hnodup).mpr hmem
  refine hperm.eq_of_pairwise (fun a b ha hb' hab hba => ?_) (ancestors_sorted t r) hsorted
  have ha := (mem_ancestors.mp ha).1
  have hb' := (mem_ancestors.mp ((hmem b).mpr hb')).1
  exact h.lft_inj ha hb' (le_antisymm hba hab)

theorem ancestors_root (h : WellFormed t) (hr : IsRoot t r) : ancestors t r = [] := by
  refine List.eq_nil_iff_forall_not_mem.mpr fun c hc => ?_
  obtain ⟨hc, hin⟩ := mem_ancestors.mp hc
  obtain heq | hcr := hr.2 c hc (h.clusters r hr.1 c hc hin).symm
  · rw [heq] at hin
    exact not_inside_self _ hin
  · exact hin.not_symm hcr

theorem length_ancestors_lt (hr : r ∈ t) : (ancestors t r).length < t.length := by
  unfold ancestors
  rw [List.length_insertionSort]
  refine List.length_filter_lt_length_iff_exists.mpr ⟨r, hr, ?_⟩
  rw [decide_eq_true_eq]
  exact not_inside_self _

end Ancestors

/-! ## The walk -/

section Walk

variable {t : Table} {q r p : Row} {s s' : ProcVars} {path : List Row}

/-- What a pass does to `@qos` and `@delta_qos`. -/
def qosPass (qos : String × String) (row : Row) : String × String :=
  if qos.1 = "" then (row.qos, row.deltaQos ++ qos.2) else qos

/-- The variables after the rows of a path, as if the loop never stopped before its end. -/
structure Walked (path : List Row) (s s' : ProcVars) : Prop where
  parId : s'.parId = s.parId.or (path.head?.map fun r => r.id)
  limits : ∀ l, s'.limits l = (s.limits l).or (path.findSome? fun r => r.get l)
  qos : (s'.qos, s'.deltaQos) = path.foldl qosPass (s.qos, s.deltaQos)

theorem pass_eq (h : WellFormed t) (hq : q ∈ t) (hqu : q.user = "") (hs : s.myAcct = q.acct) :
    s.pass q.cluster t =
      { parId := s.parId.or (some q.id)
        limits := fun l => (s.limits l).or (q.get l)
        qos := if s.qos = "" then q.qos else s.qos
        deltaQos := if s.qos = "" then q.deltaQos ++ s.deltaQos else s.deltaQos
        myAcct := q.parentAcct } := by
  unfold ProcVars.pass
  rw [hs, h.find_account hq hqu]

theorem pass_walked (h : WellFormed t) (hq : q ∈ t) (hqu : q.user = "") (hs : s.myAcct = q.acct) :
    Walked [q] s (s.pass q.cluster t) := by
  rw [pass_eq h hq hqu hs]
  refine ⟨rfl, fun l => ?_, ?_⟩
  · show (s.limits l).or (q.get l) = (s.limits l).or ([q].findSome? fun r => r.get l)
    rw [List.findSome?_singleton]
  · show _ = qosPass (s.qos, s.deltaQos) q
    unfold qosPass
    split <;> rfl

theorem Walked.append {path' : List Row} {s'' : ProcVars} (hne : path ≠ []) (h : Walked path s s')
    (h' : Walked path' s' s'') : Walked (path ++ path') s s'' := by
  refine ⟨?_, fun l => ?_, ?_⟩
  · rw [h'.parId, h.parId, Option.or_assoc]
    cases path with
    | nil => exact absurd rfl hne
    | cons q path => rfl
  · rw [h'.limits, h.limits, Option.or_assoc, List.findSome?_append]
  · rw [h'.qos, h.qos, List.foldl_append]

theorem isSet_some {v : Option Int} (h : isSet v = true) : v.isSome := by
  cases v with
  | none => cases h
  | some v => rfl

/-- When everything is set the rest of the way changes nothing. -/
theorem walked_done (hdone : s.done = true) (hacct : s.myAcct ≠ "") (hid : s.parId.isSome)
    (path : List Row) : Walked path s s := by
  unfold ProcVars.done at hdone
  rw [Bool.or_eq_true, decide_eq_true_eq, or_iff_left hacct] at hdone
  simp only [Bool.and_eq_true, decide_eq_true_eq] at hdone
  obtain ⟨⟨⟨⟨⟨⟨h1, h2⟩, h3⟩, h4⟩, h5⟩, h6⟩, hqos⟩ := hdone
  refine ⟨(Option.or_of_isSome hid).symm, fun l => ?_, ?_⟩
  · refine (Option.or_of_isSome ?_).symm
    cases l with
    | maxJobs => exact isSet_some h1
    | maxSubmitJobs => exact isSet_some h2
    | maxCpusPj => exact isSet_some h3
    | maxNodesPj => exact isSet_some h4
    | maxWallPj => exact isSet_some h5
    | maxCpuMinsPj => exact isSet_some h6
  · induction path with
    | nil => rfl
    | cons q path ih =>
      rw [List.foldl_cons, qosPass, if_neg hqos]
      exact ih

/-- The account that a row names, and the way up from there. -/
theorem Tree.parent (h : Tree t) (hr : r ∈ t) (htop : ¬r.isTop) :
    ∃ p ∈ t, p.user = "" ∧ p.acct = r.parentName ∧ p.cluster = r.cluster ∧
      ancestors t r = p :: ancestors t p := by
  obtain ⟨p, hp, hpu, hacct, hb⟩ := h.filed r hr htop
  exact ⟨p, hp, hpu, hacct, (h.clusters r hr p hp hb.1).symm, ancestors_cons h.toWellFormed hp hb⟩

/-- The loop ends, with the variables that the whole way up gives. -/
theorem repeatUntil_walked (h : Tree t) :
    ∀ {path : List Row} {q : Row}, q ∈ t → q.user = "" → ancestors t q = path →
      ∀ {fuel : Nat} {s : ProcVars}, path.length < fuel → s.myAcct = q.acct →
        ∃ s', ProcVars.repeatUntil q.cluster t fuel s = some s' ∧ Walked (q :: path) s s' := by
  intro path
  induction path with
  | nil =>
    intro q hq hqu hpath fuel s hfuel hs
    have hwalk := pass_walked h.toWellFormed hq hqu hs
    have htop : q.isTop := by
      by_contra htop
      obtain ⟨p, -, -, -, -, hcons⟩ := h.parent hq htop
      rw [hpath] at hcons
      cases hcons
    have hdone : (s.pass q.cluster t).done = true := by
      rw [pass_eq h.toWellFormed hq hqu hs]
      unfold ProcVars.done
      rw [Bool.or_eq_true, decide_eq_true_eq]
      exact Or.inr htop.2
    cases fuel with
    | zero => exact absurd hfuel (Nat.not_lt_zero _)
    | succ fuel =>
      refine ⟨s.pass q.cluster t, ?_, hwalk⟩
      rw [ProcVars.repeatUntil]
      exact if_pos hdone
  | cons p path ih =>
    intro q hq hqu hpath fuel s hfuel hs
    have hwalk := pass_walked h.toWellFormed hq hqu hs
    have htop : ¬q.isTop := by
      intro htop
      rw [ancestors_root h.toWellFormed (h.tops q hq htop)] at hpath
      cases hpath
    have hparent : q.parentAcct ≠ "" := fun hp => htop ⟨hqu, hp⟩
    have hname : q.parentName = q.parentAcct := if_neg fun hc => hc.1 hqu
    cases fuel with
    | zero => exact absurd hfuel (Nat.not_lt_zero _)
    | succ fuel =>
      rw [ProcVars.repeatUntil]
      by_cases hdone : (s.pass q.cluster t).done = true
      · refine ⟨s.pass q.cluster t, if_pos hdone, ?_⟩
        refine hwalk.append (List.cons_ne_nil _ _) (walked_done hdone ?_ ?_ (p :: path))
        · rw [pass_eq h.toWellFormed hq hqu hs]
          exact hparent
        · rw [pass_eq h.toWellFormed hq hqu hs]
          cases s.parId <;> rfl
      · obtain ⟨p', hp, hpu, hacct, hcluster, hcons⟩ := h.parent hq htop
        rw [hpath] at hcons
        obtain ⟨rfl, hrest⟩ := List.cons.inj hcons
        have hmy : (s.pass q.cluster t).myAcct = p.acct := by
          rw [pass_eq h.toWellFormed hq hqu hs, hacct, hname]
        obtain ⟨s', hrun, hwalk'⟩ := ih hp hpu hrest.symm (Nat.lt_of_succ_lt_succ hfuel) hmy
        rw [hcluster] at hrun
        exact ⟨s', (if_neg hdone).trans hrun, hwalk.append (List.cons_ne_nil _ _) hwalk'⟩

/-- `get_parent_limits` returns, and has walked from the account to the root. -/
theorem getParentLimits_spec (h : Tree t) (hq : q ∈ t) (hqu : q.user = "") {fuel : Nat}
    (hfuel : t.length ≤ fuel) :
    ∃ s', getParentLimits fuel q.acct q.cluster t = some s' ∧
      Walked (q :: ancestors t q) { myAcct := q.acct } s' :=
  repeatUntil_walked h hq hqu rfl (Nat.lt_of_lt_of_le (length_ancestors_lt hq) hfuel) rfl

end Walk

/-! ## The loop -/

/-- The limit that the cache holds after a walk. -/
def inheritedValue (path : List Row) (l : PerJob) : Nat :=
  match path.findSome? fun r => r.get l with
  | some v => l.parent v
  | none => INFINITE

/-- The QOS and the deltas that a walk finds. -/
def inheritedQos (path : List Row) : String × String := path.foldl qosPass ("", "")

/-- A text that is not empty. -/
def nonempty (text : String) : Option Text := if text = "" then none else some text.toList

/-- The cache has the values of a walk. -/
structure Cache.Holds (path : List Row) (c : Cache) : Prop where
  limits : ∀ l, c.limits l = inheritedValue path l
  qos : c.qos = nonempty (inheritedQos path).1
  deltaQos : c.deltaQos = nonempty (inheritedQos path).2

/-- The way that the cache is about: none yet, or up from the account it names. -/
structure Cache.Right (t : Table) (path : List Row) (c : Cache) : Prop extends c.Holds path where
  last : c.lastAcct = none ∨ ∃ p ∈ t, p.user = "" ∧ c.lastAcct = some p.acct ∧
    c.lastCluster = some p.cluster ∧ path = p :: ancestors t p

/-- The way up that was walked last before a row. -/
def lastAbove (t : Table) (pre : List Row) : List Row :=
  ((pre.filter fun p => ¬p.isTop).getLast?.map (ancestors t)).getD []

/-- The way up whose values complete a row. -/
def carried (t : Table) (pre : List Row) (row : Row) : List Row :=
  if row.isTop then lastAbove t pre else ancestors t row

/-- What is said of the record of a row, by the rows before it. -/
structure Completed (withRawQos : Bool) (t : Table) (pre : List Row) (row : Row) (rec : AssocRec) :
    Prop where
  id : rec.id = row.id
  user : rec.user = if row.user = "" then none else some row.user
  limits : ∀ l, rec.limits l =
    match row.get l with
    | some v => l.atoi v
    | none => inheritedValue (carried t pre row) l
  qosList : rec.qosList = qosOf withRawQos row.qos row.deltaQos
    (nonempty (inheritedQos (carried t pre row)).1) (nonempty (inheritedQos (carried t pre row)).2)

/-- The records go with the rows, each by the rows before it. -/
def Records (R : List Row → Row → AssocRec → Prop) : List Row → List Row → List AssocRec → Prop
  | _, [], [] => True
  | pre, row :: rows, rec :: recs => R pre row rec ∧ Records R (pre ++ [row]) rows recs
  | _, _, _ => False

theorem forall_split_cons {α : Type} {C : List α → α → Prop} {x : α} {xs : List α} :
    (∀ a y b, x :: xs = a ++ y :: b → C a y) ↔
      C [] x ∧ ∀ a y b, xs = a ++ y :: b → C (x :: a) y := by
  constructor
  · exact fun hall => ⟨hall [] x xs rfl, fun a y b hab => hall (x :: a) y b (congrArg (x :: ·) hab)⟩
  · rintro ⟨hhead, htail⟩ a y b hab
    cases a with
    | nil =>
      obtain ⟨rfl, -⟩ := List.cons.inj hab
      exact hhead
    | cons z a =>
      obtain ⟨rfl, htl⟩ := List.cons.inj hab
      exact htail a y b htl

theorem Records.forall₂_iff {R : List Row → Row → AssocRec → Prop} {P : Row → AssocRec → Prop}
    {C : List Row → Row → Prop} {rows : List Row}
    (hRC : ∀ pre row rec, row ∈ rows → R pre row rec → (P row rec ↔ C pre row)) :
    ∀ {pre : List Row} {recs : List AssocRec}, Records R pre rows recs →
      (List.Forall₂ P rows recs ↔ ∀ a row b, rows = a ++ row :: b → C (pre ++ a) row) := by
  induction rows with
  | nil =>
    intro pre recs h
    cases recs with
    | nil => exact iff_of_true List.Forall₂.nil fun a row b hab => by simp at hab
    | cons rec recs => exact h.elim
  | cons row rows ih =>
    intro pre recs h
    cases recs with
    | nil => exact h.elim
    | cons rec recs =>
      obtain ⟨hrec, hrecs⟩ := h
      have htail := ih (fun pre row rec hrow => hRC pre row rec (List.mem_cons_of_mem _ hrow)) hrecs
      rw [List.forall₂_cons, hRC pre row rec List.mem_cons_self hrec, htail,
        @forall_split_cons _ fun a row => C (pre ++ a) row]
      simp only [List.append_nil, List.append_assoc, List.singleton_append]

section Loop

variable {t : Table} {r : Row} {c : Cache} {path pre : List Row} {fuel : Nat} {withRawQos : Bool}

theorem above_top (htop : r.isTop) : r.above = none := by
  unfold Row.above
  rw [if_neg (not_not_intro htop.2), if_pos htop.1]

theorem above_eq (htop : ¬r.isTop) : r.above = some r.parentName := by
  unfold Row.above Row.parentName
  by_cases hp : r.parentAcct = ""
  · have hu : r.user ≠ "" := fun hu => htop ⟨hu, hp⟩
    rw [if_neg (not_not_intro hp), if_neg hu, if_pos ⟨hu, hp⟩]
  · rw [if_pos hp, if_neg fun hc => hp hc.2]

theorem Walked.holds {s' : ProcVars} {acct cluster parent : String}
    (h : Walked path { myAcct := acct } s') : (Cache.ofVars s' parent cluster).Holds path := by
  have hqos : (s'.qos, s'.deltaQos) = inheritedQos path := h.qos
  refine ⟨fun l => ?_, ?_, ?_⟩
  · show (match s'.limits l with
      | some v => l.parent v
      | none => INFINITE) = inheritedValue path l
    rw [h.limits, Option.none_or]
    rfl
  · rw [← hqos]
    rfl
  · rw [← hqos]
    rfl

theorem refresh_spec (h : Tree t) (hr : r ∈ t) (hfuel : t.length ≤ fuel) (hc : c.Right t path) :
    ∃ c', c.refresh fuel t r = some c' ∧
      c'.Right t (if r.isTop then path else ancestors t r) := by
  unfold Cache.refresh
  by_cases htop : r.isTop
  · rw [above_top htop, if_pos htop]
    exact ⟨_, rfl, ⟨hc.limits, hc.qos, hc.deltaQos⟩, hc.last⟩
  · obtain ⟨p, hp, hpu, hacct, hcluster, hcons⟩ := h.parent hr htop
    rw [above_eq htop, if_neg htop, ← hacct, ← hcluster]
    show ∃ c', (if c.lastAcct = some p.acct ∧ c.lastCluster = some p.cluster then some c
      else (getParentLimits fuel p.acct p.cluster t).map _) = some c' ∧ _
    by_cases hlast : c.lastAcct = some p.acct ∧ c.lastCluster = some p.cluster
    · rw [if_pos hlast]
      refine ⟨c, rfl, ?_⟩
      obtain hnone | ⟨p', hp', hpu', hacct', hcluster', rfl⟩ := hc.last
      · rw [hnone] at hlast
        cases hlast.1
      · rw [hacct'] at hlast
        rw [hcluster'] at hlast
        obtain rfl := h.account_eq hp' hp hpu' hpu (Option.some.inj hlast.1)
          (Option.some.inj hlast.2)
        rw [hcons]
        exact hc
    · obtain ⟨s', hrun, hwalk⟩ := getParentLimits_spec h hp hpu hfuel
      rw [if_neg hlast, hrun, hcons]
      exact ⟨_, rfl, hwalk.holds, Or.inr ⟨p, hp, hpu, rfl, rfl, rfl⟩⟩

theorem lastAbove_snoc :
    lastAbove t (pre ++ [r]) = if r.isTop then lastAbove t pre else ancestors t r := by
  unfold lastAbove
  rw [List.filter_append]
  by_cases htop : r.isTop
  · rw [if_pos htop, List.filter_cons_of_neg (by simpa using htop), List.filter_nil,
      List.append_nil]
  · rw [if_neg htop, List.filter_cons_of_pos (by simpa using htop), List.filter_nil,
      List.getLast?_concat]
    rfl

theorem getLoop_records (h : Tree t) (hfuel : t.length ≤ fuel) {rows : List Row}
    (hrows : ∀ r ∈ rows, r ∈ t) : ∀ {pre : List Row} {c : Cache}, c.Right t (lastAbove t pre) →
      ∃ recs, getLoop fuel withRawQos t rows c = some recs ∧
        Records (Completed withRawQos t) pre rows recs := by
  induction rows with
  | nil => exact fun hc => ⟨[], rfl, trivial⟩
  | cons r rows ih =>
    intro pre c hc
    obtain ⟨c', hrefresh, hright⟩ := refresh_spec h (hrows r List.mem_cons_self) hfuel hc
    have hnext : c'.Right t (lastAbove t (pre ++ [r])) := by
      rw [lastAbove_snoc]
      exact hright
    obtain ⟨recs, hrun, hrecs⟩ := ih (fun x hx => hrows x (List.mem_cons_of_mem _ hx)) hnext
    refine ⟨c'.record withRawQos r :: recs, ?_, ⟨rfl, rfl, fun l => ?_, ?_⟩, hrecs⟩
    · rw [getLoop, hrefresh]
      show (getLoop fuel withRawQos t rows c').map _ = _
      rw [hrun]
      rfl
    · show (match r.get l with
        | some v => l.atoi v
        | none => c'.limits l) = _
      rw [hright.limits l]
      rfl
    · show qosOf withRawQos r.qos r.deltaQos c'.qos c'.deltaQos = _
      rw [hright.qos, hright.deltaQos]
      rfl

/-- The call returns a record for each row of the query. -/
theorem getAssociations_records (h : Tree t) (hfuel : t.length ≤ fuel) (sel : Row → Bool) :
    ∃ recs, getAssociations fuel withRawQos sel t = some recs ∧
      Records (Completed withRawQos t) [] (rowsOf sel t) recs := by
  refine getLoop_records h hfuel (fun r hr => ?_) ⟨⟨fun l => rfl, rfl, rfl⟩, Or.inl rfl⟩
  exact List.mem_of_mem_filter ((List.mem_insertionSort _).mp hr)

end Loop

/-! ## Right limits -/

/-- The records have the limits meant. -/
def LimitsRead (t : Table) (rows : List Row) (recs : List AssocRec) : Prop :=
  List.Forall₂ (fun row rec => rec.id = row.id ∧ ∀ l, rec.limits l = limitMeant t row l) rows recs

/-- The row has no `max_cpu_mins_per_job` beyond an `int`, and where it is a root without some
limit, the last row before it that is not a root inherits none. -/
structure ReadsRight (t : Table) (pre : List Row) (row : Row) : Prop where
  minutes : ∀ v ∈ row.maxCpuMinsPerJob, v < 2147483648
  roots : row.isTop → ∀ l, row.get l = none →
    ∀ p ∈ (pre.filter fun p => ¬p.isTop).getLast?, fromAbove t p l = none

section Limits

variable {t : Table} {r : Row} {pre path : List Row} {l : PerJob} {v : Int}

theorem atoi_eq (hl : l ≠ .maxCpuMinsPj) (v : Int) : l.atoi v = l.field v := by
  have hwrap : uint32 (int32 v) = uint32 v := by
    unfold uint32 int32
    rw [show (4294967296 : Int) = ((4294967296 : Nat) : Int) from rfl, Int.bmod_emod]
  cases l with
  | maxCpuMinsPj => exact absurd rfl hl
  | _ => exact hwrap

theorem parent_eq (l : PerJob) (v : Int) : l.parent v = l.field v := by
  cases l with
  | maxCpuMinsPj => rfl
  | maxJobs => exact atoi_eq (by decide) v
  | maxSubmitJobs => exact atoi_eq (by decide) v
  | maxCpusPj => exact atoi_eq (by decide) v
  | maxNodesPj => exact atoi_eq (by decide) v
  | maxWallPj => exact atoi_eq (by decide) v

/-- What is written to a column is read as it is, and is no `INFINITE`. -/
theorem field_eq (h : l.Fits v) : l.field v = v.toNat ∧ l.field v ≠ INFINITE := by
  obtain ⟨hpos, hlow, hbound⟩ := h
  have hfield : l.field v = v.toNat := by
    cases l with
    | maxCpuMinsPj =>
      have hlt : v < 9223372036854775808 := hbound
      exact congrArg Int.toNat (Int.emod_eq_of_lt hpos (by omega))
    | _ =>
      have hlt : v < 2147483648 := hbound
      exact congrArg Int.toNat (Int.emod_eq_of_lt hpos (by omega))
  refine ⟨hfield, fun hinf => ?_⟩
  have hval : v.toNat = 4294967295 := hfield.symm.trans hinf
  omega

/-- `atoi` gives the minutes up to the largest `int`. -/
theorem atoi_minutes_eq_iff (h : PerJob.maxCpuMinsPj.Fits v) :
    PerJob.maxCpuMinsPj.atoi v = PerJob.maxCpuMinsPj.field v ↔ v < 2147483648 := by
  obtain ⟨hpos, -, hbound⟩ := h
  have hlong : v < 9223372036854775808 := hbound
  constructor
  · intro heq
    have hulong : (int32 v % 18446744073709551616).toNat = (v % 18446744073709551616).toNat := heq
    have hlt := int32_lt v
    by_contra hge
    have hlow : -2147483648 ≤ int32 v := by
      unfold int32
      rw [Int.bmod_def]
      split <;> omega
    omega
  · intro hlt
    show ulong (int32 v) = ulong v
    rw [int32_of_range (by omega) hlt]

theorem findSome?_fits (h : Tree t) (hpath : ∀ q ∈ path, q ∈ t)
    (hfind : (path.findSome? fun q => q.get l) = some v) : l.Fits v := by
  obtain ⟨q, hq, hget⟩ := List.exists_of_findSome?_eq_some hfind
  exact h.fits q (hpath q hq) l v hget

theorem inheritedValue_eq_infinite_iff (h : Tree t) (hpath : ∀ q ∈ path, q ∈ t) :
    inheritedValue path l = INFINITE ↔ (path.findSome? fun q => q.get l) = none := by
  unfold inheritedValue
  cases hfind : path.findSome? fun q => q.get l with
  | none => exact iff_of_true rfl rfl
  | some v =>
    refine iff_of_false ?_ (by simp)
    show l.parent v ≠ INFINITE
    rw [parent_eq]
    exact (field_eq (findSome?_fits h hpath hfind)).2

theorem lastAbove_mem : ∀ q ∈ lastAbove t pre, q ∈ t := by
  intro q hq
  unfold lastAbove at hq
  cases hlast : (pre.filter fun p => ¬p.isTop).getLast? with
  | none =>
    rw [hlast] at hq
    cases hq
  | some p =>
    rw [hlast] at hq
    exact (mem_ancestors.mp hq).1

/-- The cache has no limit for a root that has none itself. -/
theorem lastAbove_none_iff (h : Tree t) : inheritedValue (lastAbove t pre) l = INFINITE ↔
    ∀ p ∈ (pre.filter fun p => ¬p.isTop).getLast?, fromAbove t p l = none := by
  rw [inheritedValue_eq_infinite_iff h lastAbove_mem]
  unfold lastAbove
  cases hlast : (pre.filter fun p => ¬p.isTop).getLast? with
  | none => exact iff_of_true rfl fun p hp => by cases hp
  | some p =>
    constructor
    · intro hnone p' hp'
      obtain rfl := Option.mem_some_iff.mp hp'
      exact hnone
    · exact fun hall => hall p rfl

theorem fromAbove_top (h : Tree t) (hr : r ∈ t) (htop : r.isTop) : fromAbove t r l = none := by
  unfold fromAbove
  rw [ancestors_root h.toWellFormed (h.tops r hr htop)]
  rfl

/-- A row that is completed has the limits meant if and only if it reads right. -/
theorem completed_limits_iff {withRawQos : Bool} {rec : AssocRec} (h : Tree t) (hr : r ∈ t)
    (hc : Completed withRawQos t pre r rec) :
    (rec.id = r.id ∧ ∀ l, rec.limits l = limitMeant t r l) ↔ ReadsRight t pre r := by
  have howned : ∀ l v, r.get l = some v →
      (rec.limits l = limitMeant t r l ↔ l.atoi v = l.field v) := by
    intro l v hget
    rw [hc.limits l, limitMeant, hget]
    exact Iff.rfl
  have hinherits : ∀ l, r.get l = none → (rec.limits l = limitMeant t r l ↔
      (r.isTop → inheritedValue (lastAbove t pre) l = INFINITE)) := by
    intro l hget
    rw [hc.limits l, limitMeant, hget, Option.none_or]
    unfold carried
    by_cases htop : r.isTop
    · rw [if_pos htop, fromAbove_top h hr htop]
      exact ⟨fun heq _ => heq, fun himp => himp htop⟩
    · rw [if_neg htop]
      refine iff_of_true ?_ fun htop' => absurd htop' htop
      show inheritedValue (ancestors t r) l = _
      unfold inheritedValue fromAbove
      cases (ancestors t r).findSome? fun q => q.get l with
      | none => rfl
      | some v => exact parent_eq l v
  constructor
  · rintro ⟨-, hall⟩
    refine ⟨fun v hv => ?_, fun htop l hget => ?_⟩
    · have hfits := h.fits r hr .maxCpuMinsPj v hv
      exact (atoi_minutes_eq_iff hfits).mp ((howned .maxCpuMinsPj v hv).mp (hall _))
    · exact (lastAbove_none_iff h).mp ((hinherits l hget).mp (hall l) htop)
  · intro hright
    refine ⟨hc.id, fun l => ?_⟩
    cases hget : r.get l with
    | some v =>
      refine (howned l v hget).mpr ?_
      by_cases hl : l = .maxCpuMinsPj
      · subst hl
        exact (atoi_minutes_eq_iff (h.fits r hr _ v hget)).mpr (hright.minutes v hget)
      · exact atoi_eq hl v
    | none =>
      exact (hinherits l hget).mpr fun htop =>
        (lastAbove_none_iff h).mpr (hright.roots htop l hget)

end Limits

/-- The associations are returned, and they have the limits meant if and only if each row reads
right. -/
theorem getAssociations_limits_iff {t : Table} (h : Tree t) {fuel : Nat} (hfuel : t.length ≤ fuel)
    (withRawQos : Bool) (sel : Row → Bool) :
    ∃ recs, getAssociations fuel withRawQos sel t = some recs ∧
      (LimitsRead t (rowsOf sel t) recs ↔
        ∀ pre row post, rowsOf sel t = pre ++ row :: post → ReadsRight t pre row) := by
  obtain ⟨recs, hget, hrecs⟩ := @getAssociations_records t fuel withRawQos h hfuel sel
  refine ⟨recs, hget, ?_⟩
  refine Records.forall₂_iff (C := ReadsRight t) (fun pre row rec hrow hc => ?_) hrecs
  have hmem := List.mem_of_mem_filter ((List.mem_insertionSort _).mp hrow)
  exact completed_limits_iff h hmem hc

/-- An account below a root with a limit, and the root of a second cluster. -/
def twoClusters : Table :=
  [{ id := 1, acct := "root", cluster := "blue", maxJobs := some 10, lft := 1, rgt := 4 },
    { id := 2, acct := "physics", cluster := "blue", parentAcct := "root", lft := 2, rgt := 3 },
    { id := 3, acct := "root", cluster := "green", lft := 5, rgt := 6 }]

theorem getAssociations_limits_iff_blue :
    ∃ recs, getAssociations 3 false (fun r => r.cluster = "blue") twoClusters = some recs ∧
      LimitsRead twoClusters (rowsOf (fun r => r.cluster = "blue") twoClusters) recs := by
  have htree : Tree twoClusters := by decide +kernel
  obtain ⟨recs, hget, hiff⟩ :=
    getAssociations_limits_iff htree (Nat.le_refl 3) false fun r => r.cluster = "blue"
  have hrows : rowsOf (fun r => r.cluster = "blue") twoClusters =
      [twoClusters[0], twoClusters[1]] := by decide +kernel
  have hroot : ReadsRight twoClusters [] twoClusters[0] :=
    ⟨fun v hv => (by cases hv), fun _ l _ p hp => (by cases hp)⟩
  have haccount : ReadsRight twoClusters [twoClusters[0]] twoClusters[1] :=
    ⟨fun v hv => (by cases hv), fun htop => absurd htop (by decide)⟩
  refine ⟨recs, hget, hiff.mpr ?_⟩
  rw [hrows, forall_split_cons, forall_split_cons]
  exact ⟨hroot, haccount, fun pre row post hnil => by simp at hnil⟩

/-- The root of the second cluster gets the limit of the first one's. -/
theorem not_limitsRead_twoClusters :
    ¬∀ (t : Table) (fuel : Nat) (sel : Row → Bool), Tree t → t.length ≤ fuel →
      ∃ recs, getAssociations fuel false sel t = some recs ∧ LimitsRead t (rowsOf sel t) recs := by
  intro hall
  obtain ⟨recs, hget, hread⟩ :=
    hall twoClusters 3 (fun _ => true) (by decide +kernel) (Nat.le_refl 3)
  have hgot : (getAssociations 3 false (fun _ => true) twoClusters).map
      (List.map fun rec => rec.limits .maxJobs) = some [10, 10, 10] := by decide +kernel
  have hmeant : (rowsOf (fun _ => true) twoClusters).map
      (fun r => limitMeant twoClusters r .maxJobs) = [10, 10, INFINITE] := by decide +kernel
  rw [hget] at hgot
  have heq : recs.map (fun rec => rec.limits .maxJobs) =
      (rowsOf (fun _ => true) twoClusters).map fun r => limitMeant twoClusters r .maxJobs := by
    refine List.forall₂_eq_eq_eq ▸ ?_
    rw [List.forall₂_map_left_iff, List.forall₂_map_right_iff]
    exact List.Forall₂.flip (hread.imp fun _ _ hrow => hrow.2 .maxJobs)
  rw [hmeant, Option.some.inj hgot] at heq
  exact absurd heq (by decide)

end Slurm.AssocTable
