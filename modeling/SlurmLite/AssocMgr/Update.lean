import Mathlib

/-!
# The association manager

The cached associations of `assoc_mgr.c` and the two calls that change them. A record has
an address; a pointer that is followed to a record that is gone, or around a circle, is
undefined. `usage_raw` and `grp_used_wall` are exact. The caches `last_parent` and
`last_acct_parent` give the record that the search by id gives.

* **Records** (`Assoc`, `Used`, `Mgr`): the list, the root and the fields in use.
* **Parents** (`setAssocParentAndUser`, `climb`): the pointers and the walks along them.
* **Calls** (`refreshAssocMgrAssociationList`, `assocMgrUpdateAssocs`).
-/

namespace Slurm.AssocMgr

/-! ## Records -/

def noVal : UInt32 := 0xfffffffe

/-- The fields that `_addto_used_info` adds. -/
@[ext] structure Used where
  grpUsedCpus : UInt32
  grpUsedNodes : UInt32
  grpUsedWall : ℚ
  usedJobs : UInt32
  usedSubmitJobs : UInt32
  usageRaw : ℚ
  deriving DecidableEq

instance : Zero Used :=
  ⟨{ grpUsedCpus := 0, grpUsedNodes := 0, grpUsedWall := 0, usedJobs := 0, usedSubmitJobs := 0,
     usageRaw := 0 }⟩

/-- `_addto_used_info`. -/
instance : Add Used where
  add a b := {
    grpUsedCpus := a.grpUsedCpus + b.grpUsedCpus
    grpUsedNodes := a.grpUsedNodes + b.grpUsedNodes
    grpUsedWall := a.grpUsedWall + b.grpUsedWall
    usedJobs := a.usedJobs + b.usedJobs
    usedSubmitJobs := a.usedSubmitJobs + b.usedSubmitJobs
    usageRaw := a.usageRaw + b.usageRaw }

/-- `acct_association_rec_t` as the storage and the updates send it. -/
structure AssocObject where
  id : UInt32
  parentId : UInt32
  lft : UInt32
  user : Option String
  uid : UInt32
  acct : Option String
  partition : Option String
  cluster : Option String
  sharesRaw : UInt32
  deriving DecidableEq

/-- `acct_association_rec_t` in the list. -/
structure Assoc where
  addr : Nat
  id : UInt32
  parentId : UInt32
  lft : UInt32
  user : Option String
  uid : UInt32
  acct : Option String
  partition : Option String
  cluster : Option String
  parentAssocPtr : Option Nat
  used : Used
  deriving DecidableEq

/-- `assoc_mgr_association_list` and `assoc_mgr_root_assoc`. -/
structure Mgr where
  assocList : Option (List Assoc)
  rootAssoc : Option Nat
  nextAddr : Nat
  deriving DecidableEq

/-- What does not change while the process runs. -/
structure Config where
  clusterName : Option String
  setupChildern : Bool
  removeAssocNotify : Bool
  uidFromString : String → Option UInt32

/-- A record as it is allocated. -/
def AssocObject.record (o : AssocObject) (addr : Nat) : Assoc where
  addr
  id := o.id
  parentId := o.parentId
  lft := o.lft
  user := o.user
  uid := o.uid
  acct := o.acct
  partition := o.partition
  cluster := o.cluster
  parentAssocPtr := none
  used := 0

/-! ## Parents -/

/-- `_set_assoc_parent_and_user` without the root; a parent that is not in the list
leaves the pointer as it is. -/
def setAssocParentAndUser (cfg : Config) (recs : List Assoc) (r : Assoc) : Assoc :=
  let ptr :=
    if r.parentId ≠ 0 then
      match recs.find? (·.id = r.parentId) with
      | some p => if p.addr = r.addr then none else some p.addr
      | none => if r.parentAssocPtr = some r.addr then none else r.parentAssocPtr
    else r.parentAssocPtr
  { r with
    parentAssocPtr := ptr
    uid := (r.user.bind cfg.uidFromString).getD noVal }

/-- A record without a parent id is the root. -/
def setRoot (root : Option Nat) (r : Assoc) : Option Nat :=
  if r.parentId = 0 then some r.addr else root

/-- The records along the parent pointers, from `ptr` on. With as much fuel as there are
records, `none` is a pointer to no record or a circle. -/
def climb (recs : List Assoc) : Nat → Option Nat → Option (List Nat)
  | _, none => some []
  | 0, some _ => none
  | n + 1, some a =>
    (recs.find? (·.addr = a)).bind fun r =>
      (climb recs n r.parentAssocPtr).map (a :: ·)

/-- `_addto_used_info` on the record at `a`. -/
def addtoUsedInfo (u : Used) (recs : List Assoc) (a : Nat) : List Assoc :=
  recs.map fun r => if r.addr = a then { r with used := r.used + u } else r

/-- The walks of `_normalize_assoc_shares`, when the shares are kept. -/
def sharesWalk (cfg : Config) (recs kept : List Assoc) : Bool :=
  !cfg.setupChildern || recs.all fun r =>
    (climb (recs ++ kept) (recs ++ kept).length r.parentAssocPtr).isSome

/-! ## Refresh -/

/-- `_post_association_list`. -/
def postAssociationList (cfg : Config) (recs : List Assoc) (root : Option Nat) :
    Option (List Assoc × Option Nat) :=
  let recs' := recs.map (setAssocParentAndUser cfg recs)
  if sharesWalk cfg recs' [] then some (recs', recs.foldl setRoot root) else none

/-- What the new list gets from one user association of the old one: the record with its
id and all above it. -/
def addCurrent (recs : List Assoc) (curr : Assoc) : Option (List Assoc) :=
  match recs.find? (·.id = curr.id) with
  | none => some recs
  | some r => (climb recs recs.length (some r.addr)).map (·.foldl (addtoUsedInfo curr.used) recs)

/-- The list that the storage gives, in memory. -/
def freshList (m : Mgr) (rows : List AssocObject) : List Assoc :=
  rows.mapIdx fun i o => o.record (m.nextAddr + i)

/-- `_refresh_assoc_mgr_association_list`; `none` for `rows`: the storage gave no list. -/
def refreshAssocMgrAssociationList (cfg : Config) (m : Mgr)
    (rows : Option (List AssocObject)) : Option Mgr :=
  match rows with
  | none => some m
  | some rows => do
    let (recs, root) ← postAssociationList cfg (freshList m rows) m.rootAssoc
    let old := (m.assocList.getD []).filter (·.user.isSome)
    let recs ← old.foldlM addCurrent recs
    return { assocList := some recs, rootAssoc := root, nextAddr := m.nextAddr + rows.length }

/-! ## Updates -/

inductive UpdateType
  | modify
  | add
  | remove
  | other
  deriving DecidableEq

/-- `given` is there and is not the text of the record. -/
def differs (given own : Option String) : Bool :=
  match given, own with
  | none, _ => false
  | some _, none => true
  | some g, some o => g.toLower ≠ o.toLower

/-- The record an object of an update is about. -/
def Config.finds (cfg : Config) (o : AssocObject) (r : Assoc) : Bool :=
  if o.id ≠ 0 then o.id = r.id
  else
    !(o.user.isNone && r.user.isSome) && o.uid = r.uid && !differs o.acct r.acct &&
      !differs o.partition r.partition &&
      !(cfg.clusterName.isNone && differs o.cluster r.cluster)

/-- The loop over the objects: the list, the records a notify is kept for, and whether the
parents have to be set again. -/
structure Pass where
  recs : List Assoc
  kept : List Assoc
  nextAddr : Nat
  parentsChanged : Bool

/-- One object of the update. -/
def applyObject (cfg : Config) (type : UpdateType) (p : Pass) (o : AssocObject) : Pass :=
  if o.cluster.isSome && cfg.clusterName.isSome && differs o.cluster cfg.clusterName then p
  else
    match type, p.recs.find? (cfg.finds o) with
    | .modify, some r => { p with
        recs := p.recs.map fun q =>
          if q.addr = r.addr ∧ o.parentId ≠ 0 then { q with parentId := o.parentId } else q
        parentsChanged := p.parentsChanged || (o.sharesRaw ≠ noVal && cfg.setupChildern) ||
          o.parentId ≠ 0 }
    | .add, none => { p with
        recs := p.recs ++ [o.record p.nextAddr]
        nextAddr := p.nextAddr + 1
        parentsChanged := true }
    | .remove, some r => { p with
        recs := p.recs.filter (·.addr ≠ r.addr)
        kept := if cfg.removeAssocNotify then p.kept ++ [r] else p.kept
        parentsChanged := p.parentsChanged || cfg.setupChildern }
    | _, _ => p

/-- The loop over the objects of an update of `recs`. -/
def applyObjects (cfg : Config) (m : Mgr) (recs : List Assoc) (type : UpdateType)
    (objects : List AssocObject) : Pass :=
  objects.foldl (applyObject cfg type)
    { recs, kept := [], nextAddr := m.nextAddr, parentsChanged := false }

/-- `list_sort` by `_sort_assoc_dec`: a record goes before the first that is not smaller. -/
def listSort (recs : List Assoc) : List Assoc :=
  recs.foldl (fun sorted r => sorted.orderedInsert (fun a b => a.lft ≤ b.lft) r) []

/-- `_clear_used_info` and the two fields it leaves, for what is not a user. -/
def clearUsed (r : Assoc) : Assoc := if r.user = none then { r with used := 0 } else r

/-- The loop that sets the parents again; the root is skipped. -/
def resetParents (cfg : Config) (recs : List Assoc) :
    List Assoc → Option Nat → List Assoc × Option Nat
  | [], root => ([], root)
  | r :: rest, root =>
    if root = some r.addr then
      let (rest', root') := resetParents cfg recs rest root
      (r :: rest', root')
    else
      let (rest', root') := resetParents cfg recs rest (setRoot root r)
      (setAssocParentAndUser cfg recs (clearUsed r) :: rest', root')

/-- What the records above a user association get from it. -/
def addToParents (kept recs : List Assoc) (a : Nat) : Option (List Assoc) := do
  let r ← recs.find? (·.addr = a)
  let line ← climb (recs ++ kept) (recs ++ kept).length r.parentAssocPtr
  return line.foldl (addtoUsedInfo r.used) recs

/-- The part of `assoc_mgr_update_assocs` that runs when the parents changed. -/
def recalculate (cfg : Config) (recs kept : List Assoc) (root : Option Nat) :
    Option (List Assoc × Option Nat) := do
  let sorted := listSort recs
  let (reset, root) := resetParents cfg sorted sorted root
  let users := (reset.filter (·.user.isSome)).map (·.addr)
  let recs ← users.foldlM (addToParents kept) reset
  if sharesWalk cfg recs kept then some (recs, root) else none

/-- `assoc_mgr_update_assocs`. -/
def assocMgrUpdateAssocs (cfg : Config) (m : Mgr) (type : UpdateType)
    (objects : List AssocObject) : Option Mgr :=
  match m.assocList with
  | none => some m
  | some recs =>
    let p := applyObjects cfg m recs type objects
    if p.parentsChanged then
      (recalculate cfg p.recs p.kept m.rootAssoc).map fun (recs, root) =>
        { assocList := some recs, rootAssoc := root, nextAddr := p.nextAddr }
    else some { m with assocList := some p.recs, nextAddr := p.nextAddr }

/-! ## Runs -/

/-- A call that changes the associations. -/
inductive Op
  | refresh (rows : Option (List AssocObject))
  | update (type : UpdateType) (objects : List AssocObject)

def step (cfg : Config) (m : Mgr) : Op → Option Mgr
  | .refresh rows => refreshAssocMgrAssociationList cfg m rows
  | .update type objects => assocMgrUpdateAssocs cfg m type objects

end Slurm.AssocMgr
