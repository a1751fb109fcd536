import SlurmLite.AcctStorage.NullForms

/-!
# Accounting records

The records that accounting storage keeps, packed field by field for a version of the
protocol. A list is a count and its elements; a version leaves out the fields it does
not know, and the reader fills them in as in a new record.

* **Records** (`AssociationRec`, `UserRec`, …): the fields that are packed in some version.
* **Packing and unpacking** (`AssociationRec.pack`, `AssociationRec.unpack`, …): one
  branch for each layout, as the two functions spell it out.
* **Round trip** (`records_read_back`): what comes back of a record. Before version 3
  the limit on CPU minutes travels in 32 bits.
-/

namespace Slurm.AcctStorage

open Base.Bytes Base.CLib Slurm.Pack Slurm.Jobacct

/-! ## Records -/

/-- `acct_accounting_rec_t`. -/
structure AccountingRec where
  allocSecs : UInt64 := 0
  id : UInt32 := 0
  periodStart : Int64 := 0
deriving DecidableEq

/-- `acct_association_rec_t`, with the values of `init_acct_association_rec`. -/
structure AssociationRec where
  accountingList : Option (List AccountingRec) := none
  acct : Option CString := none
  cluster : Option CString := none
  grpCpuMins : UInt64 := noVal.toUInt64
  grpCpus : UInt32 := noVal
  grpJobs : UInt32 := noVal
  grpNodes : UInt32 := noVal
  grpSubmitJobs : UInt32 := noVal
  grpWall : UInt32 := noVal
  id : UInt32 := 0
  lft : UInt32 := 0
  maxCpuMinsPj : UInt64 := noVal.toUInt64
  maxCpusPj : UInt32 := noVal
  maxJobs : UInt32 := noVal
  maxNodesPj : UInt32 := noVal
  maxSubmitJobs : UInt32 := noVal
  maxWallPj : UInt32 := noVal
  parentAcct : Option CString := none
  parentId : UInt32 := 0
  partition : Option CString := none
  qosList : StrList := none
  rgt : UInt32 := 0
  sharesRaw : UInt32 := noVal
  uid : UInt32 := 0
  user : Option CString := none
deriving DecidableEq

/-- `acct_coord_rec_t`. -/
structure CoordRec where
  name : Option CString := none
  direct : UInt16 := 0
deriving DecidableEq

/-- `acct_wckey_rec_t`. -/
structure WckeyRec where
  accountingList : Option (List AccountingRec) := none
  cluster : Option CString := none
  id : UInt32 := 0
  name : Option CString := none
  uid : UInt32 := 0
  user : Option CString := none
deriving DecidableEq

/-- `acct_user_rec_t`. -/
structure UserRec where
  adminLevel : UInt16 := 0
  assocList : Option (List AssociationRec) := none
  coordAccts : Option (List CoordRec) := none
  defaultAcct : Option CString := none
  defaultWckey : Option CString := none
  name : Option CString := none
  uid : UInt32 := 0
  wckeyList : Option (List WckeyRec) := none
deriving DecidableEq

/-- `acct_account_rec_t`. -/
structure AccountRec where
  assocList : Option (List AssociationRec) := none
  coordinators : Option (List CoordRec) := none
  description : Option CString := none
  name : Option CString := none
  organization : Option CString := none
deriving DecidableEq

/-- `cluster_accounting_rec_t`. -/
structure ClusterAccountingRec where
  allocSecs : UInt64 := 0
  cpuCount : UInt32 := 0
  downSecs : UInt64 := 0
  idleSecs : UInt64 := 0
  overSecs : UInt64 := 0
  pdownSecs : UInt64 := 0
  periodStart : Int64 := 0
  resvSecs : UInt64 := 0
deriving DecidableEq

/-- `acct_cluster_rec_t`. -/
structure ClusterRec where
  accountingList : Option (List ClusterAccountingRec) := none
  classification : UInt16 := 0
  controlHost : Option CString := none
  controlPort : UInt32 := 0
  cpuCount : UInt32 := 0
  name : Option CString := none
  nodes : Option CString := none
  rootAssoc : Option AssociationRec := none
  rpcVersion : UInt16 := 0
deriving DecidableEq

/-- `acct_used_limits_t`. -/
structure UsedLimits where
  cpuMins : UInt64 := 0
  cpus : UInt32 := 0
  jobs : UInt32 := 0
  nodes : UInt32 := 0
  submitJobs : UInt32 := 0
  wall : UInt32 := 0
  uid : UInt32 := 0
deriving DecidableEq

/-- `acct_qos_rec_t`, with the values of `init_acct_qos_rec`. -/
structure QosRec where
  description : Option CString := none
  id : UInt32 := 0
  jobFlags : Option CString := none
  grpCpuMins : UInt64 := noVal.toUInt64
  grpCpus : UInt32 := noVal
  grpJobs : UInt32 := noVal
  grpNodes : UInt32 := noVal
  grpSubmitJobs : UInt32 := noVal
  grpWall : UInt32 := noVal
  maxCpuMinsPu : UInt64 := noVal.toUInt64
  maxCpusPu : UInt32 := noVal
  maxJobsPu : UInt32 := noVal
  maxNodesPu : UInt32 := noVal
  maxSubmitJobsPu : UInt32 := noVal
  maxWallPu : UInt32 := noVal
  name : Option CString := none
  preempteeList : StrList := none
  preemptorList : StrList := none
  priority : UInt32 := noVal
  usageFactor : Float := noVal.toFloat
  userLimitList : Option (List UsedLimits) := none

/-! ## Packing and unpacking

A reader whose result is not looked at leaves the NULL pointer where it fails, and
appending that to a list ends the program; this is no value here, as an error is. -/

/-- `pack_acct_accounting_rec`. -/
def AccountingRec.pack (object : AccountingRec) : List Item :=
  [.u64 object.allocSecs, .u32 object.id, .time object.periodStart]

/-- `unpack_acct_accounting_rec`. -/
def AccountingRec.unpack : Unpacker AccountingRec := do
  let allocSecs ← unpack64
  let id ← unpack32
  let periodStart ← unpackTime
  pure { allocSecs, id, periodStart }

/-- `pack_acct_association_rec`. -/
def AssociationRec.pack (rpcVersion : UInt16) (object : AssociationRec) : List Item :=
  if rpcVersion ≥ 4 then
    List.flatten [
      packList AccountingRec.pack object.accountingList,
      [.str object.acct, .str object.cluster,
        .u32 object.sharesRaw,
        .u64 object.grpCpuMins, .u32 object.grpCpus, .u32 object.grpJobs, .u32 object.grpNodes,
        .u32 object.grpSubmitJobs, .u32 object.grpWall,
        .u32 object.id, .u32 object.lft,
        .u64 object.maxCpuMinsPj, .u32 object.maxCpusPj, .u32 object.maxJobs,
        .u32 object.maxNodesPj, .u32 object.maxSubmitJobs, .u32 object.maxWallPj,
        .str object.parentAcct, .u32 object.parentId, .str object.partition],
      packList packStr object.qosList,
      [.u32 object.rgt, .u32 object.uid, .str object.user]]
  else if rpcVersion = 3 then
    List.flatten [
      packList AccountingRec.pack object.accountingList,
      [.str object.acct, .str object.cluster,
        .u32 object.sharesRaw,
        .u64 object.grpCpuMins, .u32 object.grpCpus, .u32 object.grpJobs, .u32 object.grpNodes,
        .u32 object.grpSubmitJobs, .u32 object.grpWall,
        .u32 object.id, .u32 object.lft,
        .u64 object.maxCpuMinsPj, .u32 object.maxCpusPj, .u32 object.maxJobs,
        .u32 object.maxNodesPj, .u32 object.maxSubmitJobs, .u32 object.maxWallPj,
        .str object.parentAcct, .u32 object.parentId, .str object.partition],
      packList packStr object.qosList,
      [.u32 object.rgt, .u32 object.uid,
        .u32 0,
        .str object.user]]
  else
    List.flatten [
      packList AccountingRec.pack object.accountingList,
      [.str object.acct, .str object.cluster, .u32 object.sharesRaw, .u32 object.id,
        .u32 object.lft,
        .u32 object.maxCpuMinsPj.toUInt32, .u32 object.maxJobs, .u32 object.maxNodesPj,
        .u32 object.maxWallPj, .str object.parentAcct, .u32 object.parentId,
        .str object.partition, .u32 object.rgt, .u32 object.uid,
        .u32 0,
        .str object.user]]

/-- `unpack_acct_association_rec`. The used shares are skipped. -/
def AssociationRec.unpack (rpcVersion : UInt16) : Unpacker AssociationRec :=
  if rpcVersion ≥ 4 then do
    let accountingList ← unpackList AccountingRec.unpack
    let acct ← unpackstr
    let cluster ← unpackstr
    let sharesRaw ← unpack32
    let grpCpuMins ← unpack64
    let grpCpus ← unpack32
    let grpJobs ← unpack32
    let grpNodes ← unpack32
    let grpSubmitJobs ← unpack32
    let grpWall ← unpack32
    let id ← unpack32
    let lft ← unpack32
    let maxCpuMinsPj ← unpack64
    let maxCpusPj ← unpack32
    let maxJobs ← unpack32
    let maxNodesPj ← unpack32
    let maxSubmitJobs ← unpack32
    let maxWallPj ← unpack32
    let parentAcct ← unpackstr
    let parentId ← unpack32
    let partition ← unpackstr
    let qosList ← unpackList unpackstr
    let rgt ← unpack32
    let uid ← unpack32
    let user ← unpackstr
    pure
      { accountingList, acct, cluster, sharesRaw, grpCpuMins, grpCpus, grpJobs, grpNodes
        grpSubmitJobs, grpWall, id, lft, maxCpuMinsPj, maxCpusPj, maxJobs, maxNodesPj
        maxSubmitJobs, maxWallPj, parentAcct, parentId, partition, qosList, rgt, uid, user }
  else if rpcVersion ≥ 3 then do
    let accountingList ← unpackList AccountingRec.unpack
    let acct ← unpackstr
    let cluster ← unpackstr
    let sharesRaw ← unpack32
    let grpCpuMins ← unpack64
    let grpCpus ← unpack32
    let grpJobs ← unpack32
    let grpNodes ← unpack32
    let grpSubmitJobs ← unpack32
    let grpWall ← unpack32
    let id ← unpack32
    let lft ← unpack32
    let maxCpuMinsPj ← unpack64
    let maxCpusPj ← unpack32
    let maxJobs ← unpack32
    let maxNodesPj ← unpack32
    let maxSubmitJobs ← unpack32
    let maxWallPj ← unpack32
    let parentAcct ← unpackstr
    let parentId ← unpack32
    let partition ← unpackstr
    let qosList ← unpackList unpackstr
    let rgt ← unpack32
    let uid ← unpack32
    let _ ← unpack32
    let user ← unpackstr
    pure
      { accountingList, acct, cluster, sharesRaw, grpCpuMins, grpCpus, grpJobs, grpNodes
        grpSubmitJobs, grpWall, id, lft, maxCpuMinsPj, maxCpusPj, maxJobs, maxNodesPj
        maxSubmitJobs, maxWallPj, parentAcct, parentId, partition, qosList, rgt, uid, user }
  else do
    let accountingList ← unpackList AccountingRec.unpack
    let acct ← unpackstr
    let cluster ← unpackstr
    let sharesRaw ← unpack32
    let id ← unpack32
    let lft ← unpack32
    let maxCpuMinsPj ← unpack32
    let maxJobs ← unpack32
    let maxNodesPj ← unpack32
    let maxWallPj ← unpack32
    let parentAcct ← unpackstr
    let parentId ← unpack32
    let partition ← unpackstr
    let rgt ← unpack32
    let uid ← unpack32
    let _ ← unpack32
    let user ← unpackstr
    pure
      { accountingList, acct, cluster, sharesRaw, id, lft
        maxCpuMinsPj := maxCpuMinsPj.toUInt64, maxJobs, maxNodesPj, maxWallPj, parentAcct
        parentId, partition, rgt, uid, user }

/-- `pack_acct_coord_rec`. -/
def CoordRec.pack (object : CoordRec) : List Item := [.str object.name, .u16 object.direct]

/-- `unpack_acct_coord_rec`. -/
def CoordRec.unpack : Unpacker CoordRec := do
  let name ← unpackstr
  let direct ← unpack16
  pure { name, direct }

/-- `pack_acct_wckey_rec`. -/
def WckeyRec.pack (object : WckeyRec) : List Item :=
  List.flatten [
    packList AccountingRec.pack object.accountingList,
    [.str object.cluster, .u32 object.id, .str object.name, .u32 object.uid, .str object.user]]

/-- `unpack_acct_wckey_rec`. -/
def WckeyRec.unpack : Unpacker WckeyRec := do
  let accountingList ← unpackList AccountingRec.unpack
  let cluster ← unpackstr
  let id ← unpack32
  let name ← unpackstr
  let uid ← unpack32
  let user ← unpackstr
  pure { accountingList, cluster, id, name, uid, user }

/-- `pack_acct_user_rec`. The count at the end of the oldest layout is that of a list of
QOS that is gone. -/
def UserRec.pack (rpcVersion : UInt16) (object : UserRec) : List Item :=
  if rpcVersion ≥ 4 then
    List.flatten [
      [.u16 object.adminLevel],
      packList (AssociationRec.pack rpcVersion) object.assocList,
      packList CoordRec.pack object.coordAccts,
      [.str object.defaultAcct, .str object.defaultWckey, .str object.name, .u32 object.uid],
      packList WckeyRec.pack object.wckeyList]
  else if rpcVersion ≥ 3 then
    List.flatten [
      [.u16 object.adminLevel],
      packList (AssociationRec.pack rpcVersion) object.assocList,
      packList CoordRec.pack object.coordAccts,
      [.str object.defaultAcct, .str object.name, .u32 object.uid]]
  else
    List.flatten [
      [.u16 object.adminLevel],
      packList (AssociationRec.pack rpcVersion) object.assocList,
      packList CoordRec.pack object.coordAccts,
      [.str object.defaultAcct, .str object.name, .u32 noVal, .u32 object.uid]]

/-- `unpack_acct_user_rec`. -/
def UserRec.unpack (rpcVersion : UInt16) : Unpacker UserRec :=
  if rpcVersion ≥ 4 then do
    let adminLevel ← unpack16
    let assocList ← unpackList (AssociationRec.unpack rpcVersion)
    let coordAccts ← unpackList CoordRec.unpack
    let defaultAcct ← unpackstr
    let defaultWckey ← unpackstr
    let name ← unpackstr
    let uid ← unpack32
    let wckeyList ← unpackList WckeyRec.unpack
    pure { adminLevel, assocList, coordAccts, defaultAcct, defaultWckey, name, uid, wckeyList }
  else if rpcVersion ≥ 3 then do
    let adminLevel ← unpack16
    let assocList ← unpackList (AssociationRec.unpack rpcVersion)
    let coordAccts ← unpackList CoordRec.unpack
    let defaultAcct ← unpackstr
    let name ← unpackstr
    let uid ← unpack32
    pure { adminLevel, assocList, coordAccts, defaultAcct, name, uid }
  else do
    let adminLevel ← unpack16
    let assocList ← unpackList (AssociationRec.unpack rpcVersion)
    let coordAccts ← unpackList CoordRec.unpack
    let defaultAcct ← unpackstr
    let name ← unpackstr
    let _ ← unpackList unpackstr
    let uid ← unpack32
    pure { adminLevel, assocList, coordAccts, defaultAcct, name, uid }

/-- `pack_acct_account_rec`. -/
def AccountRec.pack (rpcVersion : UInt16) (object : AccountRec) : List Item :=
  if rpcVersion ≥ 3 then
    List.flatten [
      packList (AssociationRec.pack rpcVersion) object.assocList,
      packList CoordRec.pack object.coordinators,
      [.str object.description, .str object.name, .str object.organization]]
  else
    List.flatten [
      packList (AssociationRec.pack rpcVersion) object.assocList,
      packList CoordRec.pack object.coordinators,
      [.str object.description, .str object.name, .str object.organization, .u32 noVal]]

/-- `unpack_acct_account_rec`. -/
def AccountRec.unpack (rpcVersion : UInt16) : Unpacker AccountRec :=
  if rpcVersion ≥ 3 then do
    let assocList ← unpackList (AssociationRec.unpack rpcVersion)
    let coordinators ← unpackList CoordRec.unpack
    let description ← unpackstr
    let name ← unpackstr
    let organization ← unpackstr
    pure { assocList, coordinators, description, name, organization }
  else do
    let assocList ← unpackList (AssociationRec.unpack rpcVersion)
    let coordinators ← unpackList CoordRec.unpack
    let description ← unpackstr
    let name ← unpackstr
    let organization ← unpackstr
    let _ ← unpackList unpackstr
    pure { assocList, coordinators, description, name, organization }

/-- `pack_cluster_accounting_rec`. -/
def ClusterAccountingRec.pack (rpcVersion : UInt16) (object : ClusterAccountingRec) : List Item :=
  if rpcVersion ≥ 5 then
    [.u64 object.allocSecs, .u32 object.cpuCount, .u64 object.downSecs, .u64 object.idleSecs,
      .u64 object.overSecs, .u64 object.pdownSecs, .time object.periodStart, .u64 object.resvSecs]
  else
    [.u64 object.allocSecs, .u32 object.cpuCount, .u64 object.downSecs, .u64 object.idleSecs,
      .u64 object.overSecs, .time object.periodStart, .u64 object.resvSecs]

/-- `unpack_cluster_accounting_rec`. -/
def ClusterAccountingRec.unpack (rpcVersion : UInt16) : Unpacker ClusterAccountingRec :=
  if rpcVersion ≥ 5 then do
    let allocSecs ← unpack64
    let cpuCount ← unpack32
    let downSecs ← unpack64
    let idleSecs ← unpack64
    let overSecs ← unpack64
    let pdownSecs ← unpack64
    let periodStart ← unpackTime
    let resvSecs ← unpack64
    pure { allocSecs, cpuCount, downSecs, idleSecs, overSecs, pdownSecs, periodStart, resvSecs }
  else do
    let allocSecs ← unpack64
    let cpuCount ← unpack32
    let downSecs ← unpack64
    let idleSecs ← unpack64
    let overSecs ← unpack64
    let periodStart ← unpackTime
    let resvSecs ← unpack64
    pure { allocSecs, cpuCount, downSecs, idleSecs, overSecs, periodStart, resvSecs }

/-- `pack_acct_association_rec` of a pointer. -/
def packAcctAssociationRec (rpcVersion : UInt16) (object : Option AssociationRec) : List Item :=
  match object with
  | none => packAcctAssociationRecNull rpcVersion
  | some object => object.pack rpcVersion

/-- The limits of the root association in the oldest layout. -/
def packRootLimits (rootAssoc : Option AssociationRec) : List Item :=
  match rootAssoc with
  | none => [.u32 noVal, .u32 noVal, .u32 noVal, .u32 noVal, .u32 noVal]
  | some rootAssoc =>
    [.u32 rootAssoc.sharesRaw, .u32 rootAssoc.maxCpuMinsPj.toUInt32, .u32 rootAssoc.maxJobs,
      .u32 rootAssoc.maxNodesPj, .u32 rootAssoc.maxWallPj]

/-- `pack_acct_cluster_rec`. -/
def ClusterRec.pack (rpcVersion : UInt16) (object : ClusterRec) : List Item :=
  if rpcVersion ≥ 5 then
    List.flatten [
      packList (ClusterAccountingRec.pack rpcVersion) object.accountingList,
      [.u16 object.classification, .str object.controlHost, .u32 object.controlPort,
        .u32 object.cpuCount, .str object.name, .str object.nodes],
      packAcctAssociationRec rpcVersion object.rootAssoc,
      [.u16 object.rpcVersion]]
  else if rpcVersion ≥ 3 then
    List.flatten [
      packList (ClusterAccountingRec.pack rpcVersion) object.accountingList,
      [.str object.controlHost, .u32 object.controlPort, .str object.name, .u32 noVal],
      packAcctAssociationRec rpcVersion object.rootAssoc,
      [.u16 object.rpcVersion]]
  else
    List.flatten [
      packList (ClusterAccountingRec.pack rpcVersion) object.accountingList,
      [.str object.controlHost, .u32 object.controlPort],
      packRootLimits object.rootAssoc,
      [.str object.name]]

/-- The lower half of a 64-bit value is written, the upper half stays. -/
def withLowHalf (val : UInt64) (low : UInt32) : UInt64 :=
  UInt64.ofNat (val.toNat / 4294967296 * 4294967296 + low.toNat)

/-- `unpack_acct_cluster_rec`. -/
def ClusterRec.unpack (rpcVersion : UInt16) : Unpacker ClusterRec :=
  if rpcVersion ≥ 5 then do
    let accountingList ← unpackList (ClusterAccountingRec.unpack rpcVersion)
    let classification ← unpack16
    let controlHost ← unpackstr
    let controlPort ← unpack32
    let cpuCount ← unpack32
    let name ← unpackstr
    let nodes ← unpackstr
    let rootAssoc ← AssociationRec.unpack rpcVersion
    let clusterVersion ← unpack16
    pure
      { accountingList, classification, controlHost, controlPort, cpuCount, name, nodes
        rootAssoc := some rootAssoc, rpcVersion := clusterVersion }
  else if rpcVersion ≥ 3 then do
    let accountingList ← unpackList (ClusterAccountingRec.unpack rpcVersion)
    let controlHost ← unpackstr
    let controlPort ← unpack32
    let name ← unpackstr
    let _ ← unpack32
    let rootAssoc ← AssociationRec.unpack rpcVersion
    let clusterVersion ← unpack16
    pure
      { accountingList, controlHost, controlPort, name, rootAssoc := some rootAssoc
        rpcVersion := clusterVersion }
  else do
    let accountingList ← unpackList (ClusterAccountingRec.unpack rpcVersion)
    let controlHost ← unpackstr
    let controlPort ← unpack32
    let rootAssoc : AssociationRec := {}
    let sharesRaw ← unpack32
    let maxCpuMinsPj ← unpack32
    let maxJobs ← unpack32
    let maxNodesPj ← unpack32
    let maxWallPj ← unpack32
    let name ← unpackstr
    pure
      { accountingList, controlHost, controlPort, name, rpcVersion := 2
        rootAssoc := some { rootAssoc with
          sharesRaw, maxJobs, maxNodesPj, maxWallPj
          maxCpuMinsPj := withLowHalf rootAssoc.maxCpuMinsPj maxCpuMinsPj } }

/-- `pack_acct_used_limits`. -/
def UsedLimits.pack (object : UsedLimits) : List Item :=
  [.u64 object.cpuMins, .u32 object.cpus, .u32 object.jobs, .u32 object.nodes,
    .u32 object.submitJobs, .u32 object.wall, .u32 object.uid]

/-- `unpack_acct_used_limits`. -/
def UsedLimits.unpack : Unpacker UsedLimits := do
  let cpuMins ← unpack64
  let cpus ← unpack32
  let jobs ← unpack32
  let nodes ← unpack32
  let submitJobs ← unpack32
  let wall ← unpack32
  let uid ← unpack32
  pure { cpuMins, cpus, jobs, nodes, submitJobs, wall, uid }

/-- What `packdouble` writes. -/
def packdouble (val : Float) : Item := .u64 (val * 1000000 + 0.5).toUInt64

/-- `unpackdouble`. -/
def unpackdouble : Unpacker Float := do
  let nl ← unpack64
  pure (nl.toFloat / 1000000)

/-- `pack_acct_qos_rec`. -/
def QosRec.pack (rpcVersion : UInt16) (object : QosRec) : List Item :=
  if rpcVersion ≥ 5 then
    List.flatten [
      [.str object.description, .u32 object.id,
        .u64 object.grpCpuMins, .u32 object.grpCpus, .u32 object.grpJobs, .u32 object.grpNodes,
        .u32 object.grpSubmitJobs, .u32 object.grpWall,
        .u64 object.maxCpuMinsPu, .u32 object.maxCpusPu, .u32 object.maxJobsPu,
        .u32 object.maxNodesPu, .u32 object.maxSubmitJobsPu, .u32 object.maxWallPu,
        .str object.name],
      packList packStr object.preempteeList,
      packList packStr object.preemptorList,
      [.u32 object.priority, packdouble object.usageFactor],
      packList UsedLimits.pack object.userLimitList]
  else if rpcVersion ≥ 3 then
    List.flatten [
      [.str object.description, .u32 object.id,
        .u64 object.grpCpuMins, .u32 object.grpCpus, .u32 object.grpJobs, .u32 object.grpNodes,
        .u32 object.grpSubmitJobs, .u32 object.grpWall,
        .u64 object.maxCpuMinsPu, .u32 object.maxCpusPu, .u32 object.maxJobsPu,
        .u32 object.maxNodesPu, .u32 object.maxSubmitJobsPu, .u32 object.maxWallPu,
        .str object.name],
      packList packStr object.preempteeList,
      packList packStr object.preemptorList,
      [.u32 object.priority],
      packList UsedLimits.pack object.userLimitList]
  else
    [.str object.description, .u32 object.id, .str object.name]

/-- `unpack_acct_qos_rec`. -/
def QosRec.unpack (rpcVersion : UInt16) : Unpacker QosRec :=
  if rpcVersion ≥ 5 then do
    let description ← unpackstr
    let id ← unpack32
    let grpCpuMins ← unpack64
    let grpCpus ← unpack32
    let grpJobs ← unpack32
    let grpNodes ← unpack32
    let grpSubmitJobs ← unpack32
    let grpWall ← unpack32
    let maxCpuMinsPu ← unpack64
    let maxCpusPu ← unpack32
    let maxJobsPu ← unpack32
    let maxNodesPu ← unpack32
    let maxSubmitJobsPu ← unpack32
    let maxWallPu ← unpack32
    let name ← unpackstr
    let preempteeList ← unpackList unpackstr
    let preemptorList ← unpackList unpackstr
    let priority ← unpack32
    let usageFactor ← unpackdouble
    let userLimitList ← unpackList UsedLimits.unpack
    pure
      { description, id, grpCpuMins, grpCpus, grpJobs, grpNodes, grpSubmitJobs, grpWall
        maxCpuMinsPu, maxCpusPu, maxJobsPu, maxNodesPu, maxSubmitJobsPu, maxWallPu, name
        preempteeList, preemptorList, priority, usageFactor, userLimitList }
  else if rpcVersion ≥ 3 then do
    let description ← unpackstr
    let id ← unpack32
    let grpCpuMins ← unpack64
    let grpCpus ← unpack32
    let grpJobs ← unpack32
    let grpNodes ← unpack32
    let grpSubmitJobs ← unpack32
    let grpWall ← unpack32
    let maxCpuMinsPu ← unpack64
    let maxCpusPu ← unpack32
    let maxJobsPu ← unpack32
    let maxNodesPu ← unpack32
    let maxSubmitJobsPu ← unpack32
    let maxWallPu ← unpack32
    let name ← unpackstr
    let preempteeList ← unpackList unpackstr
    let preemptorList ← unpackList unpackstr
    let priority ← unpack32
    let userLimitList ← unpackList UsedLimits.unpack
    pure
      { description, id, grpCpuMins, grpCpus, grpJobs, grpNodes, grpSubmitJobs, grpWall
        maxCpuMinsPu, maxCpusPu, maxJobsPu, maxNodesPu, maxSubmitJobsPu, maxWallPu, name
        preempteeList, preemptorList, priority, userLimitList }
  else do
    let description ← unpackstr
    let id ← unpack32
    let name ← unpackstr
    pure { description, id, name }

/-! ## What is read back -/

/-- A limit as the oldest layout has it. -/
def carriedLimit (rpcVersion : UInt16) (limit : UInt64) : UInt64 :=
  if rpcVersion ≥ 3 then limit else limit.toUInt32.toUInt64

/-- The fields of an association that a version carries. -/
def AssociationRec.carried (rpcVersion : UInt16) (object : AssociationRec) : AssociationRec :=
  if rpcVersion ≥ 3 then object
  else { object with
    grpCpuMins := noVal.toUInt64, grpCpus := noVal, grpJobs := noVal, grpNodes := noVal
    grpSubmitJobs := noVal, grpWall := noVal, maxCpusPj := noVal, maxSubmitJobs := noVal
    qosList := none }

/-- An association as it comes back. -/
def AssociationRec.received (rpcVersion : UInt16) (object : AssociationRec) : AssociationRec :=
  { object.carried rpcVersion with
    maxCpuMinsPj := carriedLimit rpcVersion object.maxCpuMinsPj }

/-- The fields of a user that a version carries. -/
def UserRec.carried (rpcVersion : UInt16) (object : UserRec) : UserRec :=
  let object := { object with
    assocList := object.assocList.map (List.map (AssociationRec.carried rpcVersion)) }
  if rpcVersion ≥ 4 then object else { object with defaultWckey := none, wckeyList := none }

/-- A user as it comes back. -/
def UserRec.received (rpcVersion : UInt16) (object : UserRec) : UserRec :=
  { object.carried rpcVersion with
    assocList := object.assocList.map (List.map (AssociationRec.received rpcVersion)) }

/-- The fields of an account that a version carries. -/
def AccountRec.carried (rpcVersion : UInt16) (object : AccountRec) : AccountRec :=
  { object with assocList := object.assocList.map (List.map (AssociationRec.carried rpcVersion)) }

/-- An account as it comes back. -/
def AccountRec.received (rpcVersion : UInt16) (object : AccountRec) : AccountRec :=
  { object with assocList := object.assocList.map (List.map (AssociationRec.received rpcVersion)) }

/-- The fields of usage that a version carries. -/
def ClusterAccountingRec.carried (rpcVersion : UInt16) (object : ClusterAccountingRec) :
    ClusterAccountingRec :=
  if rpcVersion ≥ 5 then object else { object with pdownSecs := 0 }

/-- The fields of a root association that a cluster carries. -/
def AssociationRec.carriedRoot (rpcVersion : UInt16) (object : AssociationRec) : AssociationRec :=
  if rpcVersion ≥ 3 then object
  else
    { sharesRaw := object.sharesRaw, maxCpuMinsPj := object.maxCpuMinsPj
      maxJobs := object.maxJobs, maxNodesPj := object.maxNodesPj, maxWallPj := object.maxWallPj }

/-- The fields of a cluster that a version carries. A root association that is not there
is one with the values of a new one, and before version 3 every cluster has version 2. -/
def ClusterRec.carried (rpcVersion : UInt16) (object : ClusterRec) : ClusterRec :=
  let object := { object with
    accountingList := object.accountingList.map (List.map (ClusterAccountingRec.carried rpcVersion))
    rootAssoc := some ((object.rootAssoc.getD {}).carriedRoot rpcVersion) }
  if rpcVersion ≥ 5 then object
  else
    let object := { object with classification := 0, cpuCount := 0, nodes := none }
    if rpcVersion ≥ 3 then object else { object with rpcVersion := 2 }

/-- A cluster as it comes back. -/
def ClusterRec.received (rpcVersion : UInt16) (object : ClusterRec) : ClusterRec :=
  let rootAssoc := object.rootAssoc.getD {}
  { object.carried rpcVersion with
    rootAssoc := some { rootAssoc.carriedRoot rpcVersion with
      maxCpuMinsPj := carriedLimit rpcVersion rootAssoc.maxCpuMinsPj } }

/-- A factor with six decimals. -/
def sixDecimals (val : Float) : Float := (val * 1000000 + 0.5).toUInt64.toFloat / 1000000

/-- The fields of a QOS that a version carries, the factor with the decimals it keeps. -/
def QosRec.carried (rpcVersion : UInt16) (object : QosRec) : QosRec :=
  let object := { object with jobFlags := none }
  if rpcVersion ≥ 5 then { object with usageFactor := sixDecimals object.usageFactor }
  else
    let object := { object with usageFactor := noVal.toFloat }
    if rpcVersion ≥ 3 then object
    else { description := object.description, id := object.id, name := object.name }

/-- The lists of an association have as many elements as `list_count` can tell. -/
structure AssociationRec.Counted (object : AssociationRec) : Prop where
  accountingList : AcctStorage.Counted object.accountingList
  qosList : AcctStorage.Counted object.qosList

/-- A list has as many elements as `list_count` can tell, and so have theirs. -/
structure CountedAll {α : Type} (p : α → Prop) (list : Option (List α)) : Prop where
  counted : Counted list
  all : ∀ elems, list = some elems → ∀ x ∈ elems, p x

structure UserRec.Counted (object : UserRec) : Prop where
  assocList : CountedAll AssociationRec.Counted object.assocList
  coordAccts : AcctStorage.Counted object.coordAccts
  wckeyList : CountedAll (fun wckey => AcctStorage.Counted wckey.accountingList) object.wckeyList

structure AccountRec.Counted (object : AccountRec) : Prop where
  assocList : CountedAll AssociationRec.Counted object.assocList
  coordinators : AcctStorage.Counted object.coordinators

structure ClusterRec.Counted (object : ClusterRec) : Prop where
  accountingList : AcctStorage.Counted object.accountingList
  rootAssoc : ∀ rootAssoc, object.rootAssoc = some rootAssoc → rootAssoc.Counted

structure QosRec.Counted (object : QosRec) : Prop where
  preempteeList : AcctStorage.Counted object.preempteeList
  preemptorList : AcctStorage.Counted object.preemptorList
  userLimitList : AcctStorage.Counted object.userLimitList

theorem AccountingRec.unpack_decodes (object : AccountingRec) :
    Decodes unpack object.pack object :=
  Decodes.u64 (Decodes.u32 (Decodes.time (Decodes.pure _)))

theorem CoordRec.unpack_decodes (object : CoordRec) : Decodes unpack object.pack object :=
  Decodes.str (Decodes.u16 (Decodes.pure _))

theorem UsedLimits.unpack_decodes (object : UsedLimits) : Decodes unpack object.pack object := by
  unfold unpack pack
  apply_rules [Decodes.u64, Decodes.u32, Decodes.pure]

theorem ClusterAccountingRec.unpack_decodes (rpcVersion : UInt16) (object : ClusterAccountingRec) :
    Decodes (unpack rpcVersion) (object.pack rpcVersion) (object.carried rpcVersion) := by
  unfold unpack pack carried
  split
  · apply_rules [Decodes.u64, Decodes.u32, Decodes.time]
    exact Decodes.pure _
  · apply_rules [Decodes.u64, Decodes.u32, Decodes.time]
    exact Decodes.pure _

theorem WckeyRec.unpack_decodes {object : WckeyRec} (h : Counted object.accountingList) :
    Decodes unpack object.pack object := by
  unfold unpack pack
  simp only [List.flatten_cons, List.flatten_nil, List.cons_append, List.nil_append]
  refine (unpackList_decodes AccountingRec.unpack_decodes h).append ?_
  apply_rules [Decodes.u32, Decodes.str]
  exact Decodes.pure _

/-- A version that is neither below 3 nor from 4 on. -/
theorem eq_three {rpcVersion : UInt16} (h4 : ¬rpcVersion ≥ 4) (h3 : rpcVersion ≥ 3) :
    rpcVersion = 3 := by
  refine UInt16.toNat_inj.mp ?_
  have h4' : ¬4 ≤ rpcVersion.toNat := h4
  have h3' : 3 ≤ rpcVersion.toNat := h3
  show rpcVersion.toNat = 3
  omega

theorem AssociationRec.unpack_decodes (rpcVersion : UInt16) {object : AssociationRec}
    (h : object.Counted) :
    Decodes (unpack rpcVersion) (object.pack rpcVersion) (object.received rpcVersion) := by
  have haccounting := unpackList_decodes AccountingRec.unpack_decodes h.accountingList
  have hqos := h.qosList.strs
  unfold unpack pack received carried carriedLimit
  by_cases h4 : rpcVersion ≥ 4
  · have h3 : rpcVersion ≥ 3 := UInt16.le_trans (by decide) h4
    simp only [if_pos h4, if_pos h3, List.flatten_cons, List.flatten_nil, List.cons_append,
      List.nil_append]
    refine haccounting.append ?_
    apply_rules [Decodes.u32, Decodes.u64, Decodes.str]
    refine hqos.append ?_
    apply_rules [Decodes.u32, Decodes.str]
    exact Decodes.pure _
  · by_cases h3 : rpcVersion ≥ 3
    · simp only [if_neg h4, if_pos h3, if_pos (eq_three h4 h3), List.flatten_cons,
        List.flatten_nil, List.cons_append, List.nil_append]
      refine haccounting.append ?_
      apply_rules [Decodes.u32, Decodes.u64, Decodes.str]
      refine hqos.append ?_
      apply_rules [Decodes.u32, Decodes.str]
      exact Decodes.pure _
    · have hne : rpcVersion ≠ 3 := fun heq => h3 (heq ▸ UInt16.le_refl 3)
      simp only [if_neg h4, if_neg h3, if_neg hne, List.flatten_cons, List.flatten_nil,
        List.cons_append, List.nil_append]
      refine haccounting.append ?_
      apply_rules [Decodes.u32, Decodes.str]
      exact Decodes.pure _

section Nested

variable (rpcVersion : UInt16) {assocs : Option (List AssociationRec)}

theorem unpackAssocs_decodes (h : CountedAll AssociationRec.Counted assocs) :
    Decodes (unpackList (AssociationRec.unpack rpcVersion))
      (packList (AssociationRec.pack rpcVersion) assocs)
      (assocs.map (List.map (AssociationRec.received rpcVersion))) :=
  unpackList_decodes_map
    (fun elems he x hx => AssociationRec.unpack_decodes rpcVersion (h.all elems he x hx)) h.counted

theorem unpackWckeys_decodes {wckeys : Option (List WckeyRec)}
    (h : CountedAll (fun wckey => Counted wckey.accountingList) wckeys) :
    Decodes (unpackList WckeyRec.unpack) (packList WckeyRec.pack wckeys) wckeys := by
  have hread := unpackList_decodes_map (f := id)
    (fun elems he x hx => WckeyRec.unpack_decodes (h.all elems he x hx)) h.counted
  rw [List.map_id_fun, Option.map_id] at hread
  exact hread

end Nested

/-- The count that stands for a list that is gone. -/
theorem unpackNoList_decodes : Decodes (unpackList unpackstr) [.u32 noVal] none := by
  refine Decodes.u32 ?_
  rw [if_neg (not_not.mpr rfl)]
  exact Decodes.pure none

theorem UserRec.unpack_decodes (rpcVersion : UInt16) {object : UserRec} (h : object.Counted) :
    Decodes (unpack rpcVersion) (object.pack rpcVersion) (object.received rpcVersion) := by
  have hassocs := unpackAssocs_decodes rpcVersion h.assocList
  have hcoords := unpackList_decodes CoordRec.unpack_decodes h.coordAccts
  have hwckeys := unpackWckeys_decodes h.wckeyList
  unfold unpack pack received carried
  by_cases h4 : rpcVersion ≥ 4
  · simp only [if_pos h4, List.flatten_cons, List.flatten_nil, List.cons_append, List.nil_append,
      List.append_nil]
    refine Decodes.u16 (hassocs.append (hcoords.append ?_))
    refine Decodes.str (Decodes.str (Decodes.str (Decodes.u32 ?_)))
    exact hwckeys.map
  · simp only [if_neg h4]
    split
    · simp only [List.flatten_cons, List.flatten_nil, List.cons_append, List.nil_append]
      refine Decodes.u16 (hassocs.append (hcoords.append ?_))
      exact Decodes.str (Decodes.str (Decodes.u32 (Decodes.pure _)))
    · simp only [List.flatten_cons, List.flatten_nil, List.cons_append, List.nil_append]
      refine Decodes.u16 (hassocs.append (hcoords.append ?_))
      refine Decodes.str (Decodes.str ?_)
      exact unpackNoList_decodes.append (Decodes.u32 (Decodes.pure _))

theorem AccountRec.unpack_decodes (rpcVersion : UInt16) {object : AccountRec}
    (h : object.Counted) :
    Decodes (unpack rpcVersion) (object.pack rpcVersion) (object.received rpcVersion) := by
  have hassocs := unpackAssocs_decodes rpcVersion h.assocList
  have hcoords := unpackList_decodes CoordRec.unpack_decodes h.coordinators
  unfold unpack pack received
  split
  · simp only [List.flatten_cons, List.flatten_nil, List.cons_append, List.nil_append]
    refine hassocs.append (hcoords.append ?_)
    exact Decodes.str (Decodes.str (Decodes.str (Decodes.pure _)))
  · simp only [List.flatten_cons, List.flatten_nil, List.cons_append, List.nil_append]
    refine hassocs.append (hcoords.append ?_)
    refine Decodes.str (Decodes.str (Decodes.str ?_))
    exact unpackNoList_decodes.map

/-- The NULL form of an association is that of a new one. -/
theorem packAcctAssociationRecNull_eq (rpcVersion : UInt16) :
    packAcctAssociationRecNull rpcVersion = AssociationRec.pack rpcVersion {} := by
  unfold packAcctAssociationRecNull AssociationRec.pack
  split
  · rfl
  · split
    · rfl
    · rfl

theorem packAcctAssociationRec_eq (rpcVersion : UInt16) (object : Option AssociationRec) :
    packAcctAssociationRec rpcVersion object = (object.getD {}).pack rpcVersion := by
  cases object with
  | none => exact packAcctAssociationRecNull_eq rpcVersion
  | some object => rfl

theorem packRootLimits_eq (rootAssoc : Option AssociationRec) :
    packRootLimits rootAssoc = packRootLimits (some (rootAssoc.getD {})) := by
  cases rootAssoc with
  | none => decide
  | some rootAssoc => rfl

theorem counted_none {α : Type} : Counted (none : Option (List α)) := fun elems hc => by cases hc

theorem AssociationRec.counted_new : AssociationRec.Counted {} := ⟨counted_none, counted_none⟩

theorem withLowHalf_new (low : UInt32) : withLowHalf noVal.toUInt64 low = low.toUInt64 := by
  have hlt := low.toNat_lt
  have hval : 4294967294 / 4294967296 * 4294967296 + low.toNat = low.toNat := by omega
  refine UInt64.toNat_inj.mp ?_
  rw [withLowHalf, UInt32.toNat_toUInt64, UInt32.toNat_toUInt64, noVal_toNat, hval]
  exact UInt64.toNat_ofNat_of_lt' (hlt.trans (by decide))

theorem ClusterRec.unpack_decodes (rpcVersion : UInt16) {object : ClusterRec}
    (h : object.Counted) :
    Decodes (unpack rpcVersion) (object.pack rpcVersion) (object.received rpcVersion) := by
  have haccounting := @unpackList_decodes_map _ _ (ClusterAccountingRec.unpack rpcVersion)
    (ClusterAccountingRec.pack rpcVersion) (ClusterAccountingRec.carried rpcVersion)
    object.accountingList
    (fun _ _ x _ => ClusterAccountingRec.unpack_decodes rpcVersion x) h.accountingList
  have hcounted : (object.rootAssoc.getD {}).Counted := by
    cases hroot : object.rootAssoc with
    | none => exact AssociationRec.counted_new
    | some rootAssoc => exact h.rootAssoc rootAssoc hroot
  have hroot := AssociationRec.unpack_decodes rpcVersion hcounted
  unfold unpack pack received carried
  rw [packAcctAssociationRec_eq, packRootLimits_eq]
  by_cases h5 : rpcVersion ≥ 5
  · have h3 : rpcVersion ≥ 3 := UInt16.le_trans (by decide) h5
    simp only [if_pos h5, List.flatten_cons, List.flatten_nil, List.cons_append, List.nil_append]
    refine haccounting.append ?_
    apply_rules [Decodes.u16, Decodes.u32, Decodes.str]
    refine hroot.append (Decodes.u16 ?_)
    simp only [AssociationRec.received, AssociationRec.carried, AssociationRec.carriedRoot,
      if_pos h3]
    exact Decodes.pure _
  · simp only [if_neg h5]
    by_cases h3 : rpcVersion ≥ 3
    · simp only [if_pos h3, List.flatten_cons, List.flatten_nil, List.cons_append,
        List.nil_append]
      refine haccounting.append ?_
      apply_rules [Decodes.u32, Decodes.str]
      refine hroot.append (Decodes.u16 ?_)
      simp only [AssociationRec.received, AssociationRec.carried, AssociationRec.carriedRoot,
        if_pos h3]
      exact Decodes.pure _
    · simp only [if_neg h3, List.flatten_cons, List.flatten_nil, List.cons_append,
        List.nil_append, packRootLimits]
      refine haccounting.append ?_
      apply_rules [Decodes.u32, Decodes.str]
      simp only [withLowHalf_new, AssociationRec.carriedRoot, carriedLimit, if_neg h3]
      exact Decodes.pure _

theorem QosRec.unpack_decodes (rpcVersion : UInt16) {object : QosRec} (h : object.Counted) :
    Decodes (unpack rpcVersion) (object.pack rpcVersion) (object.carried rpcVersion) := by
  have hpreemptee := h.preempteeList.strs
  have hpreemptor := h.preemptorList.strs
  have hlimits := unpackList_decodes UsedLimits.unpack_decodes h.userLimitList
  unfold unpack pack carried
  split
  · simp only [List.flatten_cons, List.flatten_nil, List.cons_append, List.nil_append,
      List.append_nil]
    apply_rules [Decodes.u32, Decodes.u64, Decodes.str]
    refine hpreemptee.append (hpreemptor.append (Decodes.u32 ?_))
    have hfactor : Decodes unpackdouble [packdouble object.usageFactor]
        (sixDecimals object.usageFactor) := Decodes.u64 (Decodes.pure _)
    exact hfactor.append hlimits.map
  · split
    · simp only [List.flatten_cons, List.flatten_nil, List.cons_append, List.nil_append,
        List.append_nil]
      apply_rules [Decodes.u32, Decodes.u64, Decodes.str]
      refine hpreemptee.append (hpreemptor.append (Decodes.u32 ?_))
      exact hlimits.map
    · exact Decodes.str (Decodes.u32 (Decodes.str (Decodes.pure _)))

/-! ## Round trip -/

/-- The types of records. -/
inductive RecType where
  | user | account | cluster | association | qos | wckey
deriving DecidableEq

namespace RecType

/-- The records of a type. -/
abbrev Rec : RecType → Type
  | user => UserRec
  | account => AccountRec
  | cluster => ClusterRec
  | association => AssociationRec
  | qos => QosRec
  | wckey => WckeyRec

/-- The packing function of a type. -/
def pack (rpcVersion : UInt16) : (type : RecType) → type.Rec → List Item
  | user => UserRec.pack rpcVersion
  | account => AccountRec.pack rpcVersion
  | cluster => ClusterRec.pack rpcVersion
  | association => AssociationRec.pack rpcVersion
  | qos => QosRec.pack rpcVersion
  | wckey => WckeyRec.pack

/-- The unpacking function of a type. -/
def unpack (rpcVersion : UInt16) : (type : RecType) → Unpacker type.Rec
  | user => UserRec.unpack rpcVersion
  | account => AccountRec.unpack rpcVersion
  | cluster => ClusterRec.unpack rpcVersion
  | association => AssociationRec.unpack rpcVersion
  | qos => QosRec.unpack rpcVersion
  | wckey => WckeyRec.unpack

/-- What a version carries of a record. -/
def carried (rpcVersion : UInt16) : (type : RecType) → type.Rec → type.Rec
  | user => UserRec.carried rpcVersion
  | account => AccountRec.carried rpcVersion
  | cluster => ClusterRec.carried rpcVersion
  | association => AssociationRec.carried rpcVersion
  | qos => QosRec.carried rpcVersion
  | wckey => id

/-- What comes back of a record. -/
def received (rpcVersion : UInt16) : (type : RecType) → type.Rec → type.Rec
  | user => UserRec.received rpcVersion
  | account => AccountRec.received rpcVersion
  | cluster => ClusterRec.received rpcVersion
  | association => AssociationRec.received rpcVersion
  | qos => QosRec.carried rpcVersion
  | wckey => id

/-- The lists of a record have as many elements as `list_count` can tell. -/
def Counted : (type : RecType) → type.Rec → Prop
  | user => UserRec.Counted
  | account => AccountRec.Counted
  | cluster => ClusterRec.Counted
  | association => AssociationRec.Counted
  | qos => QosRec.Counted
  | wckey => fun object => AcctStorage.Counted object.accountingList

theorem unpack_decodes (rpcVersion : UInt16) {type : RecType} {object : type.Rec}
    (h : type.Counted object) :
    Decodes (type.unpack rpcVersion) (type.pack rpcVersion object)
      (type.received rpcVersion object) := by
  cases type with
  | user => exact UserRec.unpack_decodes rpcVersion h
  | account => exact AccountRec.unpack_decodes rpcVersion h
  | cluster => exact ClusterRec.unpack_decodes rpcVersion h
  | association => exact AssociationRec.unpack_decodes rpcVersion h
  | qos => exact QosRec.unpack_decodes rpcVersion h
  | wckey => exact WckeyRec.unpack_decodes h

/-- From version 3 on, what a version carries is what comes back. -/
theorem received_eq_carried {rpcVersion : UInt16} (h : 3 ≤ rpcVersion) (type : RecType)
    (object : type.Rec) : type.received rpcVersion object = type.carried rpcVersion object := by
  have hassoc : AssociationRec.received rpcVersion = AssociationRec.carried rpcVersion := by
    funext assoc
    simp only [AssociationRec.received, AssociationRec.carried, carriedLimit, ge_iff_le, if_pos h]
  cases type with
  | user =>
    show UserRec.received rpcVersion object = UserRec.carried rpcVersion object
    rw [UserRec.received, UserRec.carried, hassoc]
    split <;> rfl
  | account =>
    show AccountRec.received rpcVersion object = AccountRec.carried rpcVersion object
    rw [AccountRec.received, AccountRec.carried, hassoc]
  | cluster =>
    show ClusterRec.received rpcVersion object = ClusterRec.carried rpcVersion object
    simp only [ClusterRec.received, ClusterRec.carried, AssociationRec.carriedRoot, carriedLimit,
      ge_iff_le, if_pos h]
    split <;> rfl
  | association => exact congrFun hassoc object
  | qos => rfl
  | wckey => rfl

end RecType

/-- A record that fits its buffer is read back from just its bytes, with the fields the
version carries; before version 3 of `max_cpu_mins_pj` its lower 32 bits. -/
theorem records_read_back (type : RecType) (rpcVersion : UInt16) (object : type.Rec) (b : Buf)
    (hcounts : type.Counted object)
    (hg : Granted b.size b.processed ((type.pack rpcVersion object).flatMap Item.chunks)) :
    ReadsBack (type.unpack rpcVersion) (type.pack rpcVersion object)
      (type.received rpcVersion object) b :=
  (RecType.unpack_decodes rpcVersion hcounts).readsBack hg

theorem counted_nil {α : Type} : Counted (some ([] : List α)) := by
  intro elems hc
  rw [← Option.some.inj hc]
  exact Nat.zero_lt_succ _

/-- The association of a user with an empty list of QOS. -/
def physicsAssoc : AssociationRec where
  acct := some (CString.ofBytes [112, 104])
  maxCpuMinsPj := 4294967296
  qosList := some []
  user := some (CString.ofBytes [97])

theorem records_read_back_physicsAssoc : ∃ b, initBuf 0 = some b ∧
    ReadsBack (RecType.association.unpack 4) (RecType.association.pack 4 physicsAssoc)
      physicsAssoc b := by
  have hg : Granted 16384 0 ((RecType.association.pack 4 physicsAssoc).flatMap Item.chunks) := by
    decide +kernel
  obtain ⟨b, hb, hsize, hproc⟩ := initBuf_zero
  refine ⟨b, hb, records_read_back .association 4 physicsAssoc b ⟨counted_none, counted_nil⟩ ?_⟩
  rw [hsize, hproc]
  exact hg

/-- A limit of 2³² CPU minutes is no limit of CPU minutes in version 2. -/
theorem not_records_read_back_limit :
    ¬∀ (type : RecType) (rpcVersion : UInt16) (object : type.Rec) (b : Buf),
      type.Counted object →
      Granted b.size b.processed ((type.pack rpcVersion object).flatMap Item.chunks) →
      ReadsBack (type.unpack rpcVersion) (type.pack rpcVersion object)
        (type.carried rpcVersion object) b := by
  intro hall
  have hg : Granted 16384 0 ((RecType.association.pack 2 physicsAssoc).flatMap Item.chunks) := by
    decide +kernel
  obtain ⟨b, -, hsize, hproc⟩ := initBuf_zero
  have hg' : Granted b.size b.processed
      ((RecType.association.pack 2 physicsAssoc).flatMap Item.chunks) := by
    rw [hsize, hproc]
    exact hg
  have hcounts : RecType.association.Counted physicsAssoc := ⟨counted_none, counted_nil⟩
  have heq := (hall .association 2 physicsAssoc b hcounts hg').eq_of_decodes
    (RecType.unpack_decodes 2 hcounts) hg'
  exact absurd (congrArg AssociationRec.maxCpuMinsPj heq) (by decide)

end Slurm.AcctStorage
