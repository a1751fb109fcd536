import SlurmLite.AssocMgr.Update

/-!
# Looking up an association

`assoc_mgr_fill_in_assoc`: one pass over the list for the association a request
asks for, by id or by user, account, cluster and partition, and the copy of its
limits into the request.

* **Pass** (`look`, `search`): what becomes of each record, and the record the
  pass ends with. One that has everything but the partition is kept as a
  fallback, whether it has no partition or another one.
* **Selection** (`search_eq`): the first candidate with the partition, or else the
  last candidate.
* **Request** (`selectsRight_iff`): when that is the association asked for.
-/

namespace Slurm.AssocMgr

/-- What is copied from an association as it is. -/
structure Limits where
  grpCpuMins : UInt64
  grpCpus : UInt32
  grpJobs : UInt32
  grpNodes : UInt32
  grpSubmitJobs : UInt32
  grpWall : UInt32
  grpUsedCpus : UInt32
  grpUsedNodes : UInt32
  grpUsedWall : ℚ
  maxCpuMinsPj : UInt64
  maxCpusPj : UInt32
  maxJobs : UInt32
  maxNodesPj : UInt32
  maxSubmitJobs : UInt32
  maxWallPj : UInt32
  parentAcct : Option String
  parentAssocPtr : Option Nat
  parentId : UInt32
  rgt : UInt32
  sharesNorm : ℚ
  sharesRaw : UInt32
  usageEfctv : ℚ
  usageNorm : ℚ
  usageRaw : ℚ
  usedJobs : UInt32
  usedSubmitJobs : UInt32
  deriving DecidableEq

/-- `acct_association_rec_t` as it is looked up. -/
structure AssocRec where
  id : UInt32
  user : Option String
  uid : UInt32
  acct : Option String
  cluster : Option String
  partition : Option String
  limits : Limits
  deriving DecidableEq

/-- `acct_user_rec_t`, what a request takes from it. -/
structure AcctUser where
  uid : UInt32
  name : Option String
  defaultAcct : Option String

/-- `SLURM_SUCCESS` and `SLURM_ERROR`. -/
inductive Rc
  | success
  | error
  deriving DecidableEq

/-- What `assoc_mgr_fill_in_assoc` looks up in: the cluster name of the process,
whether associations are enforced, and the two lists as they are once they have
been got; `none` is a list that could not be got. -/
structure Lookup where
  clusterName : Option String
  enforce : Bool
  assocList : Option (List AssocRec)
  userList : Option (List AcctUser)

/-- What it leaves: the code, the request and the record `*assoc_pptr` points to. -/
structure FilledIn where
  rc : Rc
  request : AssocRec
  assocPptr : Option AssocRec
  deriving DecidableEq

/-- `assoc_mgr_fill_in_user` for a uid: the name and the default account, `none`
for `SLURM_ERROR`. -/
def assocMgrFillInUser (q : Lookup) (uid : UInt32) : Option (Option String × Option String) :=
  match q.userList with
  | none => none
  | some users =>
    if users.isEmpty && !q.enforce then some (none, none)
    else
      match users.find? (·.uid = uid) with
      | some user => some (user.name, user.defaultAcct)
      | none => if q.enforce then none else some (none, none)

/-- `strcasecmp(a, b) != 0` where `b` is there; `none` is the comparison of NULL. -/
def strcasecmpNe (a : Option String) (b : String) : Option Bool :=
  a.map fun a => a.toLower ≠ b.toLower

/-- `found && strcasecmp(asked, found)`. -/
def otherThan (asked found : Option String) : Option Bool :=
  match found with
  | none => some false
  | some b => strcasecmpNe asked b

/-- What the loop does with a record. -/
inductive Turn
  | skip
  | fallback
  | found
  deriving DecidableEq

/-- The last test of a turn. -/
def lookPartition (asked found : Option String) : Turn :=
  match asked, found with
  | none, _ => .found
  | some _, none => .fallback
  | some p, some p' => if p.toLower ≠ p'.toLower then .fallback else .found

/-- One turn of the loop. -/
def look (clusterName : Option String) (assoc found : AssocRec) : Option Turn :=
  if assoc.id ≠ 0 then
    if assoc.id = found.id then some .found else some .skip
  else if assoc.uid = noVal ∧ found.uid ≠ noVal then some .skip
  else if assoc.uid ≠ found.uid then some .skip
  else do
    if ← otherThan assoc.acct found.acct then return .skip
    -- only checked on the slurmdbd
    if clusterName.isNone && (← otherThan assoc.cluster found.cluster) then return .skip
    return lookPartition assoc.partition found.partition

/-- The loop: the record it ends with, `retAssoc` so far. -/
def search (clusterName : Option String) (assoc : AssocRec) :
    List AssocRec → Option AssocRec → Option (Option AssocRec)
  | [], retAssoc => some retAssoc
  | found :: rest, retAssoc =>
    match look clusterName assoc found with
    | none => none
    | some .skip => search clusterName assoc rest retAssoc
    | some .fallback => search clusterName assoc rest (some found)
    | some .found => some (some found)

/-- The request with the fields of the record that was found. -/
def AssocRec.filledFrom (assoc retAssoc : AssocRec) : AssocRec :=
  { id := retAssoc.id, user := assoc.user.or retAssoc.user, uid := retAssoc.uid
    acct := assoc.acct.or retAssoc.acct, cluster := assoc.cluster.or retAssoc.cluster
    partition := assoc.partition.or retAssoc.partition, limits := retAssoc.limits }

/-- The account of a user's request, and the cluster of the process; `.inl` is a
return before the list is searched. -/
def fillRequest (q : Lookup) (assoc : AssocRec) : Rc ⊕ AssocRec :=
  let unenforced : Rc := if q.enforce then .error else .success
  let named : Rc ⊕ AssocRec :=
    if assoc.acct.isSome then .inr assoc
    else if assoc.uid = noVal then .inl unenforced
    else
      match assocMgrFillInUser q assoc.uid with
      | none => .inl unenforced
      | some (name, defaultAcct) => .inr { assoc with user := name, acct := defaultAcct }
  named.map id fun assoc => { assoc with cluster := assoc.cluster.or q.clusterName }

/-- `assoc_mgr_fill_in_assoc`; `none` is a comparison with a NULL text. -/
def assocMgrFillInAssoc (q : Lookup) (assoc : AssocRec) : Option FilledIn :=
  match q.assocList with
  | none => some ⟨.error, assoc, none⟩
  | some recs =>
    if recs.isEmpty && !q.enforce then some ⟨.success, assoc, none⟩
    else
      match if assoc.id = 0 then fillRequest q assoc else .inr assoc with
      | .inl rc => some ⟨rc, assoc, none⟩
      | .inr assoc => do
        match ← search q.clusterName assoc recs none with
        | none => return ⟨if q.enforce then .error else .success, assoc, none⟩
        | some retAssoc => return ⟨.success, assoc.filledFrom retAssoc, some retAssoc⟩

/-! ## The association asked for -/

/-- A request for a user's association in a partition. -/
structure Asked where
  cluster : String
  acct : String
  uid : UInt32
  partition : String

/-- The request as it is passed; `rest` has the fields it does not ask for. -/
def Asked.request (a : Asked) (rest : AssocRec) : AssocRec :=
  { rest with
    id := 0, cluster := some a.cluster, acct := some a.acct, uid := a.uid
    partition := some a.partition }

/-- A text of a record that is missing, or is the one asked for. -/
def Fits (asked : String) (found : Option String) : Prop :=
  ∀ own, found = some own → asked.toLower = own.toLower

instance (asked : String) (found : Option String) : Decidable (Fits asked found) :=
  match found with
  | none => .isTrue (by simp [Fits])
  | some own => decidable_of_iff (asked.toLower = own.toLower) (by simp [Fits])

/-- The record matches cluster, account and uid. -/
def Asked.Matches (a : Asked) (r : AssocRec) : Prop :=
  r.uid = a.uid ∧ Fits a.acct r.acct ∧ Fits a.cluster r.cluster

/-- The record has the partition asked for. -/
def Asked.InPartition (a : Asked) (r : AssocRec) : Prop :=
  ∃ own, r.partition = some own ∧ a.partition.toLower = own.toLower

instance (a : Asked) (r : AssocRec) : Decidable (a.Matches r) :=
  inferInstanceAs (Decidable (_ ∧ _))

instance (a : Asked) (r : AssocRec) : Decidable (a.InPartition r) :=
  match h : r.partition with
  | none => .isFalse (by simp [Asked.InPartition, h])
  | some own => decidable_of_iff (a.partition.toLower = own.toLower)
      (by simp [Asked.InPartition, h])

/-- The association selected is one that matches with its partition if there is
one, or else one that matches and has no partition, or else none. -/
def SelectsRight (a : Asked) (recs : List AssocRec) (selected : Option AssocRec) : Prop :=
  if ∃ r ∈ recs, a.Matches r ∧ a.InPartition r then
    ∃ r ∈ recs, a.Matches r ∧ a.InPartition r ∧ selected = some r
  else if ∃ r ∈ recs, a.Matches r ∧ r.partition = none then
    ∃ r ∈ recs, a.Matches r ∧ r.partition = none ∧ selected = some r
  else selected = none

instance (a : Asked) (recs : List AssocRec) (selected : Option AssocRec) :
    Decidable (SelectsRight a recs selected) := by
  unfold SelectsRight
  infer_instance

/-- The record is of the user and the account, and of the cluster where the
process compares it. -/
def Asked.Candidate (a : Asked) (clusterName : Option String) (r : AssocRec) : Prop :=
  r.uid = a.uid ∧ Fits a.acct r.acct ∧ (clusterName = none → Fits a.cluster r.cluster)

instance (a : Asked) (clusterName : Option String) (r : AssocRec) :
    Decidable (a.Candidate clusterName r) :=
  inferInstanceAs (Decidable (_ ∧ _ ∧ _))

/-- The candidates in the order of the list. -/
def Asked.candidates (a : Asked) (clusterName : Option String) (recs : List AssocRec) :
    List AssocRec :=
  recs.filter (a.Candidate clusterName ·)

/-! ## The pass -/

theorem otherThan_some (asked : String) (found : Option String) :
    otherThan (some asked) found = some (!decide (Fits asked found)) := by
  cases found with
  | none => simp [otherThan, Fits]
  | some own => simp [otherThan, strcasecmpNe, Fits]

theorem lookPartition_some (a : Asked) (r : AssocRec) :
    lookPartition (some a.partition) r.partition =
      if a.InPartition r then .found else .fallback := by
  cases hp : r.partition with
  | none => simp [lookPartition, Asked.InPartition, hp]
  | some own =>
    by_cases heq : a.partition.toLower = own.toLower
    · simp [lookPartition, Asked.InPartition, hp, heq]
    · simp [lookPartition, Asked.InPartition, hp, heq]

/-- A turn of the loop for a request that names everything. -/
theorem look_request (a : Asked) (rest : AssocRec) (clusterName : Option String) (r : AssocRec) :
    look clusterName (a.request rest) r =
      some (if a.Candidate clusterName r then
        if a.InPartition r then .found else .fallback
      else .skip) := by
  have hid : ¬ (a.request rest).id ≠ 0 := not_not.mpr rfl
  have huidEq : (a.request rest).uid = a.uid := rfl
  rw [look, if_neg hid, huidEq]
  by_cases huid : r.uid = a.uid
  · have hnonuser : ¬ (a.uid = noVal ∧ r.uid ≠ noVal) := by
      rintro ⟨h, h'⟩
      exact h' (huid.trans h)
    have hacctEq : otherThan (a.request rest).acct r.acct = some (!decide (Fits a.acct r.acct)) :=
      otherThan_some a.acct r.acct
    have hclusterEq : otherThan (a.request rest).cluster r.cluster =
        some (!decide (Fits a.cluster r.cluster)) := otherThan_some a.cluster r.cluster
    have hpartEq : lookPartition (a.request rest).partition r.partition =
        if a.InPartition r then .found else .fallback := lookPartition_some a r
    rw [if_neg hnonuser, if_neg (not_not.mpr huid.symm), hacctEq, hclusterEq, hpartEq]
    by_cases hacct : Fits a.acct r.acct
    · by_cases hcluster : clusterName = none → Fits a.cluster r.cluster
      · have hcand : a.Candidate clusterName r := ⟨huid, hacct, hcluster⟩
        rw [if_pos hcand]
        cases clusterName with
        | none => simp [hacct, hcluster rfl]
        | some name => simp [hacct]
      · have hcand : ¬ a.Candidate clusterName r := fun h => hcluster h.2.2
        rw [if_neg hcand]
        push Not at hcluster
        obtain ⟨rfl, hno⟩ := hcluster
        simp [hacct, hno]
    · have hcand : ¬ a.Candidate clusterName r := fun h => hacct h.2.1
      rw [if_neg hcand]
      simp [hacct]
  · have hcand : ¬ a.Candidate clusterName r := fun h => huid h.1
    have hne : a.uid ≠ r.uid := fun h => huid h.symm
    rw [if_neg hcand, if_pos hne]
    split <;> rfl

/-- The pass ends with the first candidate that has the partition, or else with
the last candidate. -/
theorem search_eq (a : Asked) (rest : AssocRec) (clusterName : Option String)
    (recs : List AssocRec) (retAssoc : Option AssocRec) :
    search clusterName (a.request rest) recs retAssoc =
      some (((a.candidates clusterName recs).find? (a.InPartition ·)).or
        ((a.candidates clusterName recs).getLast?.or retAssoc)) := by
  induction recs generalizing retAssoc with
  | nil => simp [search, Asked.candidates]
  | cons r recs ih =>
    rw [search, look_request]
    by_cases hcand : a.Candidate clusterName r
    · have hcons : a.candidates clusterName (r :: recs) = r :: a.candidates clusterName recs :=
        List.filter_cons_of_pos (by simpa using hcand)
      rw [if_pos hcand, hcons]
      by_cases hpart : a.InPartition r
      · rw [if_pos hpart, List.find?_cons_of_pos (by simpa using hpart), Option.some_or]
      · rw [if_neg hpart, List.find?_cons_of_neg (by simpa using hpart), List.getLast?_cons]
        simp only [ih]
        cases (a.candidates clusterName recs).getLast? <;> rfl
    · have hcons : a.candidates clusterName (r :: recs) = a.candidates clusterName recs :=
        List.filter_cons_of_neg (by simpa using hcand)
      rw [if_neg hcand, hcons]
      exact ih retAssoc

/-- The association that a request selects. -/
theorem selected_eq (a : Asked) (rest : AssocRec) (q : Lookup) (recs : List AssocRec) :
    (assocMgrFillInAssoc { q with assocList := some recs } (a.request rest)).map (·.assocPptr) =
      some (((a.candidates q.clusterName recs).find? (a.InPartition ·)).or
        (a.candidates q.clusterName recs).getLast?) := by
  unfold assocMgrFillInAssoc
  by_cases hempty : (recs.isEmpty && !q.enforce) = true
  · have hnil : recs = [] := List.isEmpty_iff.mp (Bool.and_eq_true_iff.mp hempty).1
    subst hnil
    simp only [hempty, if_true]
    rfl
  · have hfill : fillRequest { q with assocList := some recs } (a.request rest) =
        .inr (a.request rest) := rfl
    have hid : (a.request rest).id = 0 := rfl
    simp only [hempty, hid, if_true, hfill, search_eq, Option.or_none]
    cases ((a.candidates q.clusterName recs).find? (a.InPartition ·)).or
      (a.candidates q.clusterName recs).getLast? <;> rfl

/-! ## When it is the one asked for -/

theorem Asked.mem_candidates {a : Asked} {clusterName : Option String} {recs : List AssocRec}
    {r : AssocRec} : r ∈ a.candidates clusterName recs ↔ r ∈ recs ∧ a.Candidate clusterName r := by
  simp [Asked.candidates]

theorem Asked.Matches.candidate {a : Asked} {r : AssocRec} (h : a.Matches r)
    (clusterName : Option String) : a.Candidate clusterName r :=
  ⟨h.1, h.2.1, fun _ => h.2.2⟩

theorem Asked.Candidate.matches_iff {a : Asked} {clusterName : Option String} {r : AssocRec}
    (h : a.Candidate clusterName r) : a.Matches r ↔ Fits a.cluster r.cluster :=
  ⟨fun hm => hm.2.2, fun hc => ⟨h.1, h.2.1, hc⟩⟩

/-- The condition: a candidate has the partition, and the first such one is not of
another cluster; or none has it, and the last candidate, if any, has no partition
and is not of another cluster. -/
def Asked.LastUnpartitioned (a : Asked) (clusterName : Option String) (recs : List AssocRec) :
    Prop :=
  match (a.candidates clusterName recs).find? (a.InPartition ·) with
  | some r => Fits a.cluster r.cluster
  | none =>
    match (a.candidates clusterName recs).getLast? with
    | some r => r.partition = none ∧ Fits a.cluster r.cluster
    | none => True

/-- **Selection.** For every list and every request with cluster, account, uid and
partition, the association selected is the one asked for exactly when the
condition holds. -/
theorem selectsRight_iff (a : Asked) (rest : AssocRec) (q : Lookup) (recs : List AssocRec) :
    (∃ r, assocMgrFillInAssoc { q with assocList := some recs } (a.request rest) = some r ∧
        SelectsRight a recs r.assocPptr) ↔
      a.LastUnpartitioned q.clusterName recs := by
  have hsel := selected_eq a rest q recs
  obtain ⟨res, hres, hptr⟩ := Option.map_eq_some_iff.mp hsel
  have hone : (∃ r, assocMgrFillInAssoc { q with assocList := some recs } (a.request rest) =
      some r ∧ SelectsRight a recs r.assocPptr) ↔ SelectsRight a recs res.assocPptr := by
    rw [hres]
    simp
  rw [hone, hptr]
  clear hone hptr hres hsel
  unfold Asked.LastUnpartitioned SelectsRight
  cases hfind : (a.candidates q.clusterName recs).find? (a.InPartition ·) with
  | some r =>
    have hpart : a.InPartition r := by simpa using List.find?_some hfind
    obtain ⟨hmem, hcand⟩ := Asked.mem_candidates.mp (List.mem_of_find?_eq_some hfind)
    simp only [Option.some_or]
    constructor
    · intro h
      split at h
      · obtain ⟨s, -, hs, -, heq⟩ := h
        obtain rfl : r = s := by simpa using heq
        exact hs.2.2
      · split at h
        · obtain ⟨s, -, hs, -, heq⟩ := h
          obtain rfl : r = s := by simpa using heq
          exact hs.2.2
        · simp at h
    · intro hc
      have hm : a.Matches r := hcand.matches_iff.mpr hc
      rw [if_pos ⟨r, hmem, hm, hpart⟩]
      exact ⟨r, hmem, hm, hpart, rfl⟩
  | none =>
    have hnone : ¬ ∃ r ∈ recs, a.Matches r ∧ a.InPartition r := by
      rintro ⟨r, hmem, hm, hpart⟩
      have hno := List.find?_eq_none.mp hfind r
        (Asked.mem_candidates.mpr ⟨hmem, hm.candidate _⟩)
      simp [hpart] at hno
    rw [if_neg hnone]
    simp only [Option.none_or]
    cases hlast : (a.candidates q.clusterName recs).getLast? with
    | none =>
      have hnil := List.getLast?_eq_none_iff.mp hlast
      have hplain : ¬ ∃ r ∈ recs, a.Matches r ∧ r.partition = none := by
        rintro ⟨r, hmem, hm, -⟩
        have hin := Asked.mem_candidates.mpr ⟨hmem, hm.candidate q.clusterName⟩
        rw [hnil] at hin
        exact absurd hin List.not_mem_nil
      rw [if_neg hplain]
      exact ⟨fun _ => trivial, fun _ => rfl⟩
    | some r =>
      obtain ⟨hmem, hcand⟩ := Asked.mem_candidates.mp (List.mem_of_getLast? hlast)
      constructor
      · intro h
        split at h
        · obtain ⟨s, -, hs, hp, heq⟩ := h
          obtain rfl : r = s := by simpa using heq
          exact ⟨hp, hs.2.2⟩
        · simp at h
      · rintro ⟨hp, hc⟩
        have hm : a.Matches r := hcand.matches_iff.mpr hc
        rw [if_pos ⟨r, hmem, hm, hp⟩]
        exact ⟨r, hmem, hm, hp, rfl⟩

/-- What is not asked for in a request. -/
def blankRec : AssocRec where
  id := 0
  user := none
  uid := 0
  acct := none
  cluster := none
  partition := none
  limits :=
    { grpCpuMins := 0, grpCpus := 0, grpJobs := 0, grpNodes := 0, grpSubmitJobs := 0, grpWall := 0
      grpUsedCpus := 0, grpUsedNodes := 0, grpUsedWall := 0, maxCpuMinsPj := 0, maxCpusPj := 0
      maxJobs := 0, maxNodesPj := 0, maxSubmitJobs := 0, maxWallPj := 0, parentAcct := none
      parentAssocPtr := none, parentId := 0, rgt := 0, sharesNorm := 0, sharesRaw := 0
      usageEfctv := 0, usageNorm := 0, usageRaw := 0, usedJobs := 0, usedSubmitJobs := 0 }

/-- An association of user 7 in account `a` on cluster `c`. -/
def assocOfSeven (id : UInt32) (partition : Option String) : AssocRec :=
  { blankRec with
    id := id, uid := 7, acct := some "a", cluster := some "c", partition := partition }

/-- One association without a partition, then one of partition `x`, and a request
for partition `p`. -/
theorem not_selectsRight_otherPartition :
    ¬ ∃ r, assocMgrFillInAssoc ⟨none, true, some [assocOfSeven 1 none, assocOfSeven 2 (some "x")],
        none⟩ (Asked.request ⟨"c", "a", 7, "p"⟩ blankRec) = some r ∧
      SelectsRight ⟨"c", "a", 7, "p"⟩ [assocOfSeven 1 none, assocOfSeven 2 (some "x")]
        r.assocPptr := by
  rintro ⟨r, hr, hright⟩
  have hsel : (assocMgrFillInAssoc ⟨none, true,
      some [assocOfSeven 1 none, assocOfSeven 2 (some "x")], none⟩
      (Asked.request ⟨"c", "a", 7, "p"⟩ blankRec)).map (·.assocPptr) =
        some (some (assocOfSeven 2 (some "x"))) := by decide +kernel
  rw [hr, Option.map_some, Option.some_inj] at hsel
  rw [hsel] at hright
  revert hright
  decide +kernel

end Slurm.AssocMgr
