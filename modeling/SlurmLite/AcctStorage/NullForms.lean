import SlurmLite.AcctStorage.JobCond

/-!
# The packed forms of objects that are not there

The packing functions of accounting storage take the NULL pointer as well, and
write a run of empty values for it that is spelled out for each type and version.
The reader does not know: it takes the fields of an object.

* **Readers** (`Field`, `unpackFields`): the fields a type is read as.
* **Types** (`unpackAcctUserRec`, `packAcctUserRecNull`, …): the fields that are
  read and the values that are written for NULL.
* **The two together** (`nullFits_iff`): for which types and versions just the
  bytes of the NULL form are read.
-/

namespace Slurm.AcctStorage

open Slurm.Pack Slurm.Jobacct

/-! ## Readers -/

/-- What is read: a value, or a list that may not be there. -/
inductive Value where
  | item (val : Item)
  | absent
  | list (elems : List (List Value))

/-- A field of an object: a value, or a list with the reader of its elements. -/
inductive Field where
  | value (kind : Kind)
  | list (elem : Unpacker (List Value))

namespace Field

def u16 : Field := value .u16
def u32 : Field := value .u32
def u64 : Field := value .u64
def time : Field := value .time
def str : Field := value .str

/-- `packdouble` and `unpackdouble` go through a `uint64_t`. -/
def double : Field := value .u64

/-- A list of strings. -/
def strs : Field := list do
  let s ← unpackstr
  pure [Value.item (.str s)]

/-- `safe_unpack…` of one field. -/
def unpack : Field → Unpacker Value
  | value kind => do
    let val ← kind.unpack
    pure (.item val)
  | list elem => do
    let elems ← unpackList elem
    pure (match elems with
      | none => .absent
      | some elems => .list elems)

end Field

/-- The fields of an object, one after the other. -/
def unpackFields : List Field → Unpacker (List Value)
  | [] => pure []
  | field :: fields => do
    let val ← field.unpack
    let vals ← unpackFields fields
    pure (val :: vals)

/-- Objects whose errors are ignored. -/
def unchecked (fields : List Field) : Unpacker (List Value) := do
  let vals ← ignoringError (unpackFields fields)
  pure (vals.getD [])

/-! ## Types

For each type the values that are unpacked, one after the other, and those that
are packed for NULL. -/

/-- `unpack_acct_accounting_rec`. -/
def unpackAcctAccountingRec : List Field := [.u64, .u32, .time]

def packAcctAccountingRecNull : List Item := [.u64 0, .u32 0, .time 0]

/-- `unpack_acct_association_rec`. -/
def unpackAcctAssociationRec (rpcVersion : UInt16) : List Field :=
  if rpcVersion ≥ 4 then
    [.list (unpackFields unpackAcctAccountingRec), .str, .str, .u32,
      .u64, .u32, .u32, .u32, .u32, .u32,
      .u32, .u32,
      .u64, .u32, .u32, .u32, .u32, .u32,
      .str, .u32, .str, .strs, .u32, .u32, .str]
  else if rpcVersion ≥ 3 then
    [.list (unpackFields unpackAcctAccountingRec), .str, .str, .u32,
      .u64, .u32, .u32, .u32, .u32, .u32,
      .u32, .u32,
      .u64, .u32, .u32, .u32, .u32, .u32,
      .str, .u32, .str, .strs, .u32, .u32, .u32, .str]
  else
    [.list (unpackFields unpackAcctAccountingRec), .str, .str, .u32,
      .u32, .u32,
      .u32, .u32, .u32, .u32,
      .str, .u32, .str, .u32, .u32, .u32, .str]

def packAcctAssociationRecNull (rpcVersion : UInt16) : List Item :=
  if rpcVersion ≥ 4 then
    [.u32 noVal, .str none, .str none, .u32 noVal,
      .u64 0xfffffffe, .u32 noVal, .u32 noVal, .u32 noVal, .u32 noVal, .u32 noVal,
      .u32 0, .u32 0,
      .u64 0xfffffffe, .u32 noVal, .u32 noVal, .u32 noVal, .u32 noVal, .u32 noVal,
      .str none, .u32 0, .str none, .u32 noVal, .u32 0, .u32 0, .str none]
  else if rpcVersion = 3 then
    [.u32 noVal, .str none, .str none, .u32 noVal,
      .u64 0xfffffffe, .u32 noVal, .u32 noVal, .u32 noVal, .u32 noVal, .u32 noVal,
      .u32 0, .u32 0,
      .u64 0xfffffffe, .u32 noVal, .u32 noVal, .u32 noVal, .u32 noVal, .u32 noVal,
      .str none, .u32 0, .str none, .u32 noVal, .u32 0, .u32 0, .u32 0, .str none]
  else
    [.u32 noVal, .str none, .str none, .u32 noVal,
      .u32 0, .u32 0,
      .u32 noVal, .u32 noVal, .u32 noVal, .u32 noVal,
      .str none, .u32 0, .str none, .u32 0, .u32 0, .u32 0, .str none]

/-- `unpack_acct_coord_rec`. -/
def unpackAcctCoordRec : List Field := [.str, .u16]

def packAcctCoordRecNull : List Item := [.str none, .u16 0]

/-- `unpack_acct_wckey_rec`. -/
def unpackAcctWckeyRec : List Field :=
  [.list (unpackFields unpackAcctAccountingRec), .str, .u32, .str, .u32, .str]

def packAcctWckeyRecNull : List Item :=
  [.u32 noVal, .str none, .u32 noVal, .str none, .u32 noVal, .str none]

/-- `unpack_acct_user_rec`. -/
def unpackAcctUserRec (rpcVersion : UInt16) : List Field :=
  if rpcVersion ≥ 4 then
    [.u16, .list (unpackFields (unpackAcctAssociationRec rpcVersion)),
      .list (unpackFields unpackAcctCoordRec), .str, .str, .str, .u32,
      .list (unpackFields unpackAcctWckeyRec)]
  else if rpcVersion ≥ 3 then
    [.u16, .list (unpackFields (unpackAcctAssociationRec rpcVersion)),
      .list (unpackFields unpackAcctCoordRec), .str, .str, .u32]
  else
    [.u16, .list (unpackFields (unpackAcctAssociationRec rpcVersion)),
      .list (unpackFields unpackAcctCoordRec), .str, .str, .strs, .u32]

def packAcctUserRecNull (rpcVersion : UInt16) : List Item :=
  if rpcVersion ≥ 4 then
    [.u16 0, .u32 noVal, .u32 noVal, .str none, .str none, .str none, .u32 0, .u32 noVal]
  else if rpcVersion ≥ 3 then
    [.u16 0, .u32 noVal, .u32 noVal, .str none, .str none, .u32 0]
  else
    [.u16 0, .u32 noVal, .u32 noVal, .str none, .str none, .u32 noVal, .u32 0]

/-- `unpack_acct_used_limits`. -/
def unpackAcctUsedLimits : List Field := [.u64, .u32, .u32, .u32, .u32, .u32, .u32]

def packAcctUsedLimitsNull : List Item := [.u64 0, .u32 0, .u32 0, .u32 0, .u32 0, .u32 0, .u32 0]

/-- `unpack_acct_account_rec`. -/
def unpackAcctAccountRec (rpcVersion : UInt16) : List Field :=
  if rpcVersion ≥ 3 then
    [.list (unpackFields (unpackAcctAssociationRec rpcVersion)),
      .list (unpackFields unpackAcctCoordRec), .str, .str, .str]
  else
    [.list (unpackFields (unpackAcctAssociationRec rpcVersion)),
      .list (unpackFields unpackAcctCoordRec), .str, .str, .str, .strs]

def packAcctAccountRecNull (rpcVersion : UInt16) : List Item :=
  if rpcVersion ≥ 3 then [.u32 noVal, .u32 noVal, .str none, .str none, .str none]
  else [.u32 noVal, .u32 noVal, .str none, .str none, .str none, .u32 noVal]

/-- `unpack_cluster_accounting_rec`. -/
def unpackClusterAccountingRec (rpcVersion : UInt16) : List Field :=
  if rpcVersion ≥ 5 then [.u64, .u32, .u64, .u64, .u64, .u64, .time, .u64]
  else [.u64, .u32, .u64, .u64, .u64, .time, .u64]

def packClusterAccountingRecNull (rpcVersion : UInt16) : List Item :=
  if rpcVersion ≥ 5 then [.u64 0, .u32 0, .u64 0, .u64 0, .u64 0, .u64 0, .time 0, .u64 0]
  else [.u64 0, .u32 0, .u64 0, .u64 0, .u64 0, .time 0, .u64 0]

/-- `unpack_acct_cluster_rec`. -/
def unpackAcctClusterRec (rpcVersion : UInt16) : List Field :=
  if rpcVersion ≥ 5 then
    List.flatten [
      [.list (unchecked (unpackClusterAccountingRec rpcVersion)), .u16, .str, .u32, .u32, .str,
        .str],
      unpackAcctAssociationRec rpcVersion,
      [.u16]]
  else if rpcVersion ≥ 3 then
    List.flatten [
      [.list (unchecked (unpackClusterAccountingRec rpcVersion)), .str, .u32, .str, .u32],
      unpackAcctAssociationRec rpcVersion,
      [.u16]]
  else
    [.list (unchecked (unpackClusterAccountingRec rpcVersion)), .str, .u32,
      .u32, .u32, .u32, .u32, .u32, .str]

def packAcctClusterRecNull (rpcVersion : UInt16) : List Item :=
  if rpcVersion ≥ 5 then
    List.flatten [
      [.u32 noVal, .u16 0, .str none, .u32 0, .u32 0, .str none, .str none],
      packAcctAssociationRecNull rpcVersion,
      [.u16 0]]
  else if rpcVersion ≥ 3 then
    List.flatten [
      [.u32 noVal, .str none, .u32 0, .str none, .u32 noVal],
      packAcctAssociationRecNull rpcVersion,
      [.u16 0]]
  else
    [.u32 noVal, .str none, .u32 0,
      .u32 noVal, .u32 noVal, .u32 noVal, .u32 noVal, .u32 noVal, .str none, .u16 0]

/-- `unpack_acct_qos_rec`. -/
def unpackAcctQosRec (rpcVersion : UInt16) : List Field :=
  if rpcVersion ≥ 5 then
    [.str, .u32,
      .u64, .u32, .u32, .u32, .u32, .u32,
      .u64, .u32, .u32, .u32, .u32, .u32,
      .str, .strs, .strs, .u32, .double, .list (unchecked unpackAcctUsedLimits)]
  else if rpcVersion ≥ 3 then
    [.str, .u32,
      .u64, .u32, .u32, .u32, .u32, .u32,
      .u64, .u32, .u32, .u32, .u32, .u32,
      .str, .strs, .strs, .u32, .list (unchecked unpackAcctUsedLimits)]
  else
    [.str, .u32, .str]

/-- The double `NO_VAL` is packed as a million times its value. -/
def packAcctQosRecNull (rpcVersion : UInt16) : List Item :=
  if rpcVersion ≥ 5 then
    [.str none, .u32 0, .str none,
      .u64 0xfffffffe, .u32 noVal, .u32 noVal, .u32 noVal, .u32 noVal, .u32 noVal,
      .u64 0xfffffffe, .u32 noVal, .u32 noVal, .u32 noVal, .u32 noVal, .u32 noVal,
      .str none, .u32 noVal, .u32 noVal, .u32 0, .u64 4294967294000000, .u32 noVal]
  else if rpcVersion ≥ 3 then
    [.str none, .u32 0, .str none,
      .u64 0xfffffffe, .u32 noVal, .u32 noVal, .u32 noVal, .u32 noVal, .u32 noVal,
      .u64 0xfffffffe, .u32 noVal, .u32 noVal, .u32 noVal, .u32 noVal, .u32 noVal,
      .str none, .u32 noVal, .u32 noVal, .u32 0, .u32 noVal]
  else
    [.str none, .u32 0, .str none]

/-- `unpack_acct_reservation_rec`. -/
def unpackAcctReservationRec : List Field :=
  [.u64, .str, .str, .u32, .u64, .u16, .u32, .str, .str, .str, .time, .time, .time]

def packAcctReservationRecNull : List Item :=
  [.u64 0, .str none, .str none, .u32 noVal, .u64 0, .u16 0xfffe, .u32 0, .str none, .str none,
    .str none, .time 0, .time 0, .time 0]

/-- `unpack_acct_txn_rec`. -/
def unpackAcctTxnRec (rpcVersion : UInt16) : List Field :=
  if rpcVersion ≥ 3 then [.str, .u16, .str, .str, .u32, .str, .time, .str, .str]
  else [.u16, .str, .u32, .str, .time, .str]

def packAcctTxnRecNull (rpcVersion : UInt16) : List Item :=
  if rpcVersion ≥ 3 then
    [.str none, .u16 0, .str none, .str none, .u32 0, .str none, .time 0, .str none, .str none]
  else
    [.u16 0, .str none, .u32 0, .str none, .time 0, .str none]

/-- `unpack_acct_archive_rec`. -/
def unpackAcctArchiveRec : List Field := [.str, .str]

def packAcctArchiveRecNull : List Item := [.str none, .str none]

/-- `unpack_acct_association_cond`. Before version 3 some lists are single values, which
are put in a list of one unless they are 0 or `NO_VAL`. -/
def unpackAcctAssociationCond (rpcVersion : UInt16) : List Field :=
  if rpcVersion ≥ 5 then
    [.strs, .strs, .strs,
      .strs, .strs, .strs, .strs, .strs, .strs,
      .strs,
      .strs, .strs, .strs, .strs, .strs, .strs,
      .strs, .strs, .strs, .time, .time, .strs,
      .u16, .u16, .u16, .u16, .u16, .u16]
  else if rpcVersion ≥ 3 then
    [.strs, .strs, .strs,
      .strs, .strs, .strs, .strs, .strs, .strs,
      .strs,
      .strs, .strs, .strs, .strs, .strs, .strs,
      .strs, .strs, .strs, .u32, .u32, .strs,
      .u16, .u16, .u16, .u16, .u16, .u16]
  else
    [.strs, .strs, .u32, .strs, .u32, .u32, .u32, .u32, .strs, .str, .u32, .u32, .strs,
      .u16, .u16, .u16, .u16]

def packAcctAssociationCondNull (rpcVersion : UInt16) : List Item :=
  if rpcVersion ≥ 5 then
    [.u32 noVal, .u32 noVal, .u32 noVal,
      .u32 noVal, .u32 noVal, .u32 noVal, .u32 noVal, .u32 noVal, .u32 noVal,
      .u32 noVal,
      .u32 noVal, .u32 noVal, .u32 noVal, .u32 noVal, .u32 noVal, .u32 noVal,
      .u32 noVal, .u32 noVal, .u32 noVal, .time 0, .time 0, .u32 noVal,
      .u16 0, .u16 0, .u16 0, .u16 0, .u16 0, .u16 0]
  else if rpcVersion ≥ 3 then
    [.u32 noVal, .u32 noVal, .u32 noVal,
      .u32 noVal, .u32 noVal, .u32 noVal, .u32 noVal, .u32 noVal, .u32 noVal,
      .u32 noVal,
      .u32 noVal, .u32 noVal, .u32 noVal, .u32 noVal, .u32 noVal, .u32 noVal,
      .u32 noVal, .u32 noVal, .u32 noVal, .u32 0, .u32 0, .u32 noVal,
      .u16 0, .u16 0, .u16 0, .u16 0, .u16 0, .u16 0]
  else
    [.u32 noVal, .u32 noVal, .u32 noVal, .u32 noVal, .u32 noVal, .u32 noVal, .u32 noVal,
      .u32 noVal, .u32 noVal, .str none, .u32 0, .u32 0, .u32 noVal,
      .u16 0, .u16 0, .u16 0, .u16 0]

/-- `unpack_acct_user_cond`. -/
def unpackAcctUserCond (rpcVersion : UInt16) : List Field :=
  if rpcVersion ≥ 4 then
    List.flatten [
      [.u16],
      unpackAcctAssociationCond rpcVersion,
      [.strs, .strs, .u16, .u16, .u16, .u16]]
  else if rpcVersion ≥ 3 then
    List.flatten [[.u16], unpackAcctAssociationCond rpcVersion, [.strs, .u16, .u16, .u16]]
  else
    List.flatten [[.u16], unpackAcctAssociationCond rpcVersion, [.strs, .u32, .u16, .u16, .u16]]

def packAcctUserCondNull (rpcVersion : UInt16) : List Item :=
  if rpcVersion ≥ 4 then
    List.flatten [
      [.u16 0],
      packAcctAssociationCondNull rpcVersion,
      [.u32 noVal, .u32 noVal, .u16 0, .u16 0, .u16 0, .u16 0]]
  else if rpcVersion ≥ 3 then
    List.flatten [
      [.u16 0],
      packAcctAssociationCondNull rpcVersion,
      [.u32 noVal, .u16 0, .u16 0, .u16 0]]
  else
    List.flatten [
      [.u16 0],
      packAcctAssociationCondNull rpcVersion,
      [.u32 noVal, .u32 noVal, .u16 0, .u16 0, .u16 0]]

/-- `unpack_acct_account_cond`. -/
def unpackAcctAccountCond (rpcVersion : UInt16) : List Field :=
  if rpcVersion ≥ 3 then
    List.flatten [unpackAcctAssociationCond rpcVersion, [.strs, .strs, .u16, .u16, .u16]]
  else
    List.flatten [unpackAcctAssociationCond rpcVersion, [.strs, .strs, .u32, .u16, .u16, .u16]]

def packAcctAccountCondNull (rpcVersion : UInt16) : List Item :=
  if rpcVersion ≥ 3 then
    List.flatten [
      packAcctAssociationCondNull rpcVersion,
      [.u32 noVal, .u32 noVal, .u16 0, .u16 0, .u16 0]]
  else
    List.flatten [
      packAcctAssociationCondNull rpcVersion,
      [.u32 noVal, .u32 noVal, .u32 noVal, .u16 0, .u16 0, .u16 0]]

/-- `unpack_acct_cluster_cond`, which also leaves out an empty list. -/
def unpackAcctClusterCond (rpcVersion : UInt16) : List Field :=
  if rpcVersion ≥ 5 then [.u16, .strs, .time, .time, .u16, .u16]
  else [.strs, .u32, .u32, .u16, .u16]

def packAcctClusterCondNull (rpcVersion : UInt16) : List Item :=
  if rpcVersion ≥ 5 then [.u16 0, .u32 noVal, .time 0, .time 0, .u16 0, .u16 0]
  else [.u32 noVal, .u32 0, .u32 0, .u16 0, .u16 0]

def packAcctJobCondNull (rpcVersion : UInt16) : List Item :=
  if rpcVersion ≥ 5 then
    [.u32 noVal, .u32 noVal, .u32 noVal, .u16 0, .u32 noVal, .u32 noVal, .u32 noVal, .u32 noVal,
      .u32 noVal, .time 0, .time 0, .str none, .u32 noVal, .u32 noVal, .u16 0, .u16 0]
  else if rpcVersion ≥ 4 then
    [.u32 noVal, .u32 noVal, .u32 noVal, .u16 0, .u32 noVal, .u32 noVal, .u32 noVal, .u32 noVal,
      .u32 0, .u32 0, .u32 noVal, .u32 noVal, .u16 0]
  else
    [.u32 noVal, .u32 noVal, .u32 noVal, .u16 0, .u32 noVal, .u32 noVal, .u32 noVal, .u32 noVal,
      .u32 0, .u32 0, .u32 noVal, .u16 0]

/-- `unpack_acct_qos_cond`. -/
def unpackAcctQosCond : List Field := [.strs, .strs, .strs, .u16]

def packAcctQosCondNull : List Item := [.u32 noVal, .u32 noVal, .u32 noVal, .u16 0]

/-- `unpack_acct_reservation_cond`. -/
def unpackAcctReservationCond : List Field := [.strs, .u16, .strs, .strs, .str, .time, .time, .u16]

/-- The counts of ids and names are `(uint16_t)NO_VAL`. -/
def packAcctReservationCondNull : List Item :=
  [.u32 noVal, .u16 0, .u32 0xfffe, .u32 0xfffe, .str none, .time 0, .time 0, .u16 0]

/-- `unpack_acct_txn_cond`. -/
def unpackAcctTxnCond (rpcVersion : UInt16) : List Field :=
  if rpcVersion ≥ 5 then
    [.strs, .strs, .strs, .strs, .strs, .strs, .strs, .time, .time, .strs, .u16]
  else if rpcVersion ≥ 3 then
    [.strs, .strs, .strs, .strs, .strs, .strs, .strs, .u32, .u32, .strs, .u16]
  else
    [.strs, .strs, .strs, .u32, .u32]

def packAcctTxnCondNull (rpcVersion : UInt16) : List Item :=
  if rpcVersion ≥ 5 then
    [.u32 noVal, .u32 noVal, .u32 noVal, .u32 noVal, .u32 noVal, .u32 noVal, .time 0, .time 0,
      .u32 noVal, .u16 0]
  else if rpcVersion ≥ 3 then
    [.u32 noVal, .u32 noVal, .u32 noVal, .u32 noVal, .u32 noVal, .u32 noVal, .u32 0, .u32 0,
      .u32 noVal, .u16 0]
  else
    [.u32 noVal, .u32 noVal, .u32 noVal, .u32 0, .u32 0]

/-- `unpack_acct_wckey_cond`. -/
def unpackAcctWckeyCond (rpcVersion : UInt16) : List Field :=
  if rpcVersion ≥ 5 then [.strs, .strs, .strs, .time, .time, .strs, .u16, .u16]
  else [.strs, .strs, .strs, .u32, .u32, .strs, .u16, .u16]

def packAcctWckeyCondNull (rpcVersion : UInt16) : List Item :=
  if rpcVersion ≥ 5 then
    [.u32 noVal, .u32 noVal, .u32 noVal, .time 0, .time 0, .u32 noVal, .u16 0, .u16 0]
  else
    [.u32 noVal, .u32 noVal, .u32 noVal, .u32 0, .u32 0, .u32 noVal, .u16 0, .u16 0]

/-- `unpack_acct_archive_cond`, with the job condition in the middle. -/
def unpackAcctArchiveCond (rpcVersion : UInt16) :
    Unpacker (List Value × JobCond × List Value) := do
  let archive ← unpackFields [.str, .u16, .u16, .str, .u16, .u16]
  let jobCond ← unpackAcctJobCond rpcVersion
  let purge ← unpackFields [.u16, .u16, .u16, .u16]
  pure (archive, jobCond, purge)

def packAcctArchiveCondNull (rpcVersion : UInt16) : List Item :=
  List.flatten [
    [.str none, .u16 0xfffe, .u16 0xfffe, .str none, .u16 0xfffe, .u16 0xfffe],
    packAcctJobCondNull rpcVersion,
    [.u16 0xfffe, .u16 0xfffe, .u16 0xfffe, .u16 0xfffe]]

/-! ## The two together -/

/-- Just the bytes of the items are read, wherever they come next. -/
def Consumes {α : Type} (u : Unpacker α) (items : List Item) : Prop :=
  ∃ x, Reads u (Chunk.flat (items.flatMap Item.chunks)) x

/-- The record and condition types with a NULL form. -/
inductive Packed where
  | userRec | usedLimits | accountRec | coordRec | clusterAccountingRec | clusterRec | accountingRec
  | associationRec | qosRec | reservationRec | txnRec | wckeyRec | archiveRec
  | userCond | accountCond | clusterCond | associationCond | jobCond | qosCond | reservationCond
  | txnCond | wckeyCond | archiveCond
deriving DecidableEq

/-- The NULL form of a type is read as an object of the type. -/
def NullFits (rpcVersion : UInt16) : Packed → Prop
  | .userRec =>
    Consumes (unpackFields (unpackAcctUserRec rpcVersion)) (packAcctUserRecNull rpcVersion)
  | .usedLimits => Consumes (unpackFields unpackAcctUsedLimits) packAcctUsedLimitsNull
  | .accountRec =>
    Consumes (unpackFields (unpackAcctAccountRec rpcVersion)) (packAcctAccountRecNull rpcVersion)
  | .coordRec => Consumes (unpackFields unpackAcctCoordRec) packAcctCoordRecNull
  | .clusterAccountingRec =>
    Consumes (unpackFields (unpackClusterAccountingRec rpcVersion))
      (packClusterAccountingRecNull rpcVersion)
  | .clusterRec =>
    Consumes (unpackFields (unpackAcctClusterRec rpcVersion)) (packAcctClusterRecNull rpcVersion)
  | .accountingRec => Consumes (unpackFields unpackAcctAccountingRec) packAcctAccountingRecNull
  | .associationRec =>
    Consumes (unpackFields (unpackAcctAssociationRec rpcVersion))
      (packAcctAssociationRecNull rpcVersion)
  | .qosRec => Consumes (unpackFields (unpackAcctQosRec rpcVersion)) (packAcctQosRecNull rpcVersion)
  | .reservationRec => Consumes (unpackFields unpackAcctReservationRec) packAcctReservationRecNull
  | .txnRec => Consumes (unpackFields (unpackAcctTxnRec rpcVersion)) (packAcctTxnRecNull rpcVersion)
  | .wckeyRec => Consumes (unpackFields unpackAcctWckeyRec) packAcctWckeyRecNull
  | .archiveRec => Consumes (unpackFields unpackAcctArchiveRec) packAcctArchiveRecNull
  | .userCond =>
    Consumes (unpackFields (unpackAcctUserCond rpcVersion)) (packAcctUserCondNull rpcVersion)
  | .accountCond =>
    Consumes (unpackFields (unpackAcctAccountCond rpcVersion)) (packAcctAccountCondNull rpcVersion)
  | .clusterCond =>
    Consumes (unpackFields (unpackAcctClusterCond rpcVersion)) (packAcctClusterCondNull rpcVersion)
  | .associationCond =>
    Consumes (unpackFields (unpackAcctAssociationCond rpcVersion))
      (packAcctAssociationCondNull rpcVersion)
  | .jobCond => Consumes (unpackAcctJobCond rpcVersion) (packAcctJobCondNull rpcVersion)
  | .qosCond => Consumes (unpackFields unpackAcctQosCond) packAcctQosCondNull
  | .reservationCond =>
    Consumes (unpackFields unpackAcctReservationCond) packAcctReservationCondNull
  | .txnCond => Consumes (unpackFields (unpackAcctTxnCond rpcVersion))
    (packAcctTxnCondNull rpcVersion)
  | .wckeyCond =>
    Consumes (unpackFields (unpackAcctWckeyCond rpcVersion)) (packAcctWckeyCondNull rpcVersion)
  | .archiveCond => Consumes (unpackAcctArchiveCond rpcVersion) (packAcctArchiveCondNull rpcVersion)

/-- The types whose NULL form and reader differ. -/
def Differs (rpcVersion : UInt16) : Packed → Prop
  | .clusterRec => rpcVersion < 3
  | .qosRec => 3 ≤ rpcVersion
  | .jobCond => 5 ≤ rpcVersion
  | .archiveCond => 5 ≤ rpcVersion
  | .reservationCond => True
  | .txnCond => 3 ≤ rpcVersion
  | _ => False

/-- The values that NULL forms are made of. -/
def plain : Item → Bool
  | .u16 _ => true
  | .u32 _ => true
  | .u64 _ => true
  | .time _ => true
  | .str none => true
  | _ => false

theorem fits_of_plain {i : Item} (h : plain i = true) : i.Fits := by
  cases i with
  | u8 val => cases h
  | u16 val => trivial
  | u32 val => trivial
  | u64 val => trivial
  | time val => trivial
  | str s =>
    cases s with
    | none => exact (by decide : 0 < 4294967296)
    | some s => cases h
  | mem valp => cases h
  | strArray valp => cases h
  | u32Array valp => cases h
  | memArray valp => cases h

/-- The items go with the fields one by one, a list with the count `NO_VAL`. -/
def accepts : List Field → List Item → Bool
  | [], [] => true
  | .value kind :: fields, item :: items =>
    decide (item.kind = kind) && plain item && accepts fields items
  | .list _ :: fields, .u32 count :: items => decide (count = noVal) && accepts fields items
  | _, _ => false

theorem decodes_of_accepts {fields : List Field} :
    ∀ {items : List Item}, accepts fields items = true →
      (∀ i ∈ items, plain i = true) ∧ ∃ vals, Decodes (unpackFields fields) items vals := by
  induction fields with
  | nil =>
    intro items h
    cases items with
    | nil => exact ⟨fun i hi => absurd hi List.not_mem_nil, [], Decodes.pure []⟩
    | cons i items => cases h
  | cons field fields ih =>
    intro items h
    cases field with
    | value kind =>
      cases items with
      | nil => cases h
      | cons i items =>
        have h' : (decide (i.kind = kind) && plain i && accepts fields items) = true := h
        rw [Bool.and_eq_true, Bool.and_eq_true, decide_eq_true_eq] at h'
        obtain ⟨⟨rfl, hplain⟩, hrest⟩ := h'
        obtain ⟨hall, vals, hvals⟩ := ih hrest
        refine ⟨List.forall_mem_cons.mpr ⟨hplain, hall⟩, .item i :: vals, ?_⟩
        have hread : i.Fits → Reads (Field.value i.kind).unpack (Chunk.flat i.chunks) (.item i) :=
          fun hfit => (Item.reads hfit).map
        exact Decodes.cons hread hvals.map
    | list elem =>
      cases items with
      | nil => cases h
      | cons i items =>
        cases i with
        | u32 count =>
          have h' : (decide (count = noVal) && accepts fields items) = true := h
          rw [Bool.and_eq_true, decide_eq_true_eq] at h'
          obtain ⟨rfl, hrest⟩ := h'
          obtain ⟨hall, vals, hvals⟩ := ih hrest
          refine ⟨List.forall_mem_cons.mpr ⟨rfl, hall⟩, .absent :: vals, ?_⟩
          have hnone := @unpackCounted_decodes _ (fun _ => []) elem none
          exact (hnone.map).append hvals.map
        | _ => cases h

theorem consumes_of_decodes {α : Type} {u : Unpacker α} {items : List Item} {x : α}
    (hplain : ∀ i ∈ items, plain i = true) (h : Decodes u items x) : Consumes u items :=
  ⟨x, h fun i hi => fits_of_plain (hplain i hi)⟩

theorem consumes_of_accepts {fields : List Field} {items : List Item}
    (h : accepts fields items = true) : Consumes (unpackFields fields) items := by
  obtain ⟨hplain, vals, hvals⟩ := decodes_of_accepts h
  exact consumes_of_decodes hplain hvals

/-- The reader fails in a buffer of just these bytes, or leaves some of them. -/
def stumbles {α : Type} (u : Unpacker α) (items : List Item) : Bool :=
  if h : (Chunk.flat (items.flatMap Item.chunks)).length < 4294967296 then
    let r := u ⟨Chunk.flat (items.flatMap Item.chunks), 0, Nat.zero_le _, h⟩
    r.1.isNone || decide (r.2.processed ≠ (Chunk.flat (items.flatMap Item.chunks)).length)
  else false

theorem not_consumes_of_stumbles {α : Type} {u : Unpacker α} {items : List Item}
    (h : stumbles u items = true) : ¬Consumes u items := by
  rintro ⟨x, hread⟩
  unfold stumbles at h
  split at h
  · rename_i hlen
    obtain ⟨r, hu, hproc, -⟩ := hread ⟨_, 0, Nat.zero_le _, hlen⟩ List.prefix_rfl
    rw [hu] at h
    have hall : r.processed = (Chunk.flat (items.flatMap Item.chunks)).length := by
      rw [hproc, Nat.zero_add]
    simp [hall] at h
  · cases h

/-- The versions the code tells apart. -/
def era (rpcVersion : UInt16) : UInt16 :=
  if rpcVersion ≥ 5 then 5 else if rpcVersion ≥ 4 then 4 else if rpcVersion ≥ 3 then 3 else 2

section Era

variable (rpcVersion : UInt16)

theorem era_cases :
    (rpcVersion ≥ 5 ∧ era rpcVersion = 5) ∨ (rpcVersion = 4 ∧ era rpcVersion = 4) ∨
      (rpcVersion = 3 ∧ era rpcVersion = 3) ∨ (rpcVersion < 3 ∧ era rpcVersion = 2) := by
  unfold era
  by_cases h5 : rpcVersion ≥ 5
  · exact Or.inl ⟨h5, if_pos h5⟩
  · rw [if_neg h5]
    by_cases h4 : rpcVersion ≥ 4
    · refine Or.inr (Or.inl ⟨?_, if_pos h4⟩)
      rw [ge_iff_le, UInt16.le_iff_toNat_le] at h4 h5
      refine UInt16.toNat_inj.mp ?_
      have h4' : 4 ≤ rpcVersion.toNat := h4
      have h5' : ¬5 ≤ rpcVersion.toNat := h5
      show rpcVersion.toNat = 4
      omega
    · rw [if_neg h4]
      by_cases h3 : rpcVersion ≥ 3
      · refine Or.inr (Or.inr (Or.inl ⟨?_, if_pos h3⟩))
        rw [ge_iff_le, UInt16.le_iff_toNat_le] at h3 h4
        refine UInt16.toNat_inj.mp ?_
        have h3' : 3 ≤ rpcVersion.toNat := h3
        have h4' : ¬4 ≤ rpcVersion.toNat := h4
        show rpcVersion.toNat = 3
        omega
      · exact Or.inr (Or.inr (Or.inr ⟨UInt16.not_le.mp h3, if_neg h3⟩))

theorem era_ge {n : UInt16} (hn : n = 5 ∨ n = 4 ∨ n = 3) : era rpcVersion ≥ n ↔ rpcVersion ≥ n := by
  obtain ⟨hv, he⟩ | ⟨hv, he⟩ | ⟨hv, he⟩ | ⟨hv, he⟩ := era_cases rpcVersion
  · have hle : n ≤ 5 := by
      obtain rfl | rfl | rfl := hn <;> decide
    rw [he]
    exact iff_of_true hle (UInt16.le_trans hle hv)
  · rw [he, hv]
  · rw [he, hv]
  · have hlt : 3 ≤ n := by
      obtain rfl | rfl | rfl := hn <;> decide
    rw [he]
    refine iff_of_false ?_ fun hc => UInt16.not_le.mpr hv (UInt16.le_trans hlt hc)
    obtain rfl | rfl | rfl := hn <;> decide

theorem era_eq_three : era rpcVersion = 3 ↔ rpcVersion = 3 := by
  obtain ⟨hv, he⟩ | ⟨hv, he⟩ | ⟨hv, he⟩ | ⟨hv, he⟩ := era_cases rpcVersion
  · rw [he]
    refine iff_of_false (by decide) fun hc => ?_
    rw [hc] at hv
    exact absurd hv (by decide)
  · rw [he, hv]
  · rw [he, hv]
  · rw [he]
    refine iff_of_false (by decide) fun hc => ?_
    rw [hc] at hv
    exact absurd hv (by decide)

theorem era_ge_five : era rpcVersion ≥ 5 ↔ rpcVersion ≥ 5 := era_ge rpcVersion (Or.inl rfl)
theorem era_ge_four : era rpcVersion ≥ 4 ↔ rpcVersion ≥ 4 :=
  era_ge rpcVersion (Or.inr (Or.inl rfl))
theorem era_ge_three : era rpcVersion ≥ 3 ↔ rpcVersion ≥ 3 :=
  era_ge rpcVersion (Or.inr (Or.inr rfl))

/-- A version is packed and unpacked as its era. -/
theorem nullFits_era (type : Packed) : NullFits (era rpcVersion) type ↔
    NullFits rpcVersion type := by
  cases type <;>
    simp only [NullFits, unpackAcctUserRec, packAcctUserRecNull, unpackAcctAssociationRec,
      packAcctAssociationRecNull, unpackAcctAccountRec, packAcctAccountRecNull,
      unpackClusterAccountingRec, packClusterAccountingRecNull, unpackAcctClusterRec,
      packAcctClusterRecNull, unpackAcctQosRec, packAcctQosRecNull, unpackAcctTxnRec,
      packAcctTxnRecNull, unpackAcctUserCond, packAcctUserCondNull, unpackAcctAssociationCond,
      packAcctAssociationCondNull, unpackAcctAccountCond, packAcctAccountCondNull,
      unpackAcctClusterCond, packAcctClusterCondNull, unpackAcctJobCond, packAcctJobCondNull,
      unpackAcctTxnCond, packAcctTxnCondNull, unpackAcctWckeyCond, packAcctWckeyCondNull,
      unpackAcctArchiveCond, packAcctArchiveCondNull, era_ge_five, era_ge_four, era_ge_three,
      era_eq_three]

theorem differs_era (type : Packed) : Differs (era rpcVersion) type ↔ Differs rpcVersion type := by
  cases type with
  | clusterRec => exact
    (UInt16.not_le.symm.trans (not_congr (era_ge_three rpcVersion))).trans UInt16.not_le
  | qosRec => exact era_ge_three rpcVersion
  | jobCond => exact era_ge_five rpcVersion
  | archiveCond => exact era_ge_five rpcVersion
  | txnCond => exact era_ge_three rpcVersion
  | _ => exact Iff.rfl

end Era

/-- Before version 5 the NULL form of a job condition is that of an empty one. -/
theorem packAcctJobCond_empty {rpcVersion : UInt16}
    (h : rpcVersion = 4 ∨ rpcVersion = 2 ∨ rpcVersion = 3) :
    packAcctJobCond rpcVersion {} = packAcctJobCondNull rpcVersion ∧
      ∀ i ∈ packAcctJobCondNull rpcVersion, plain i = true := by
  obtain rfl | rfl | rfl := h <;> exact ⟨by decide, by decide⟩

theorem empty_counted : JobCond.Counted {} := by
  have hnone : ∀ {α : Type}, Counted (none : Option (List α)) := fun elems hc => by cases hc
  exact ⟨hnone, hnone, hnone, hnone, hnone, hnone, hnone, hnone, hnone, hnone, hnone⟩

theorem consumes_jobCond {rpcVersion : UInt16}
    (h : rpcVersion = 4 ∨ rpcVersion = 2 ∨ rpcVersion = 3) :
    Consumes (unpackAcctJobCond rpcVersion) (packAcctJobCondNull rpcVersion) := by
  obtain ⟨hitems, hplain⟩ := packAcctJobCond_empty h
  have hdec := unpackAcctJobCond_decodes rpcVersion empty_counted
  rw [hitems] at hdec
  exact consumes_of_decodes hplain hdec

theorem consumes_archiveCond {rpcVersion : UInt16}
    (h : rpcVersion = 4 ∨ rpcVersion = 2 ∨ rpcVersion = 3) :
    Consumes (unpackAcctArchiveCond rpcVersion) (packAcctArchiveCondNull rpcVersion) := by
  obtain ⟨hitems, hplain⟩ := packAcctJobCond_empty h
  have hjob := unpackAcctJobCond_decodes rpcVersion empty_counted
  rw [hitems] at hjob
  obtain ⟨harchive, archive, hvals⟩ := @decodes_of_accepts
    [.str, .u16, .u16, .str, .u16, .u16]
    [.str none, .u16 0xfffe, .u16 0xfffe, .str none, .u16 0xfffe, .u16 0xfffe] rfl
  obtain ⟨hpurge, purge, hvals'⟩ := @decodes_of_accepts [.u16, .u16, .u16, .u16]
    [.u16 0xfffe, .u16 0xfffe, .u16 0xfffe, .u16 0xfffe] rfl
  have hdec := hvals.append (f := fun archive => do
    let jobCond ← unpackAcctJobCond rpcVersion
    let purge ← unpackFields [.u16, .u16, .u16, .u16]
    pure (archive, jobCond, purge)) (hjob.append hvals'.map)
  have hflat : packAcctArchiveCondNull rpcVersion = [.str none, .u16 0xfffe, .u16 0xfffe, .str none,
      .u16 0xfffe, .u16 0xfffe].append ((packAcctJobCondNull rpcVersion).append
        [.u16 0xfffe, .u16 0xfffe, .u16 0xfffe, .u16 0xfffe]) := by
    simp only [packAcctArchiveCondNull, List.flatten_cons, List.flatten_nil, List.append_nil]
    rfl
  rw [hflat]
  refine consumes_of_decodes (fun i hi => ?_) hdec
  obtain hi | hi := List.mem_append.mp hi
  · exact harchive i hi
  · obtain hi | hi := List.mem_append.mp hi
    · exact hplain i hi
    · exact hpurge i hi

theorem stumbling {α : Type} {u : Unpacker α} {items : List Item} {differs : Prop}
    (h : stumbles u items = true) (hd : differs) : Consumes u items ↔ ¬differs :=
  iff_of_false (not_consumes_of_stumbles h) (not_not_intro hd)

/-- Whether the reader takes the NULL form is evaluated type by type; conditions are read as
the empty ones before version 5. -/
theorem nullFits_of_era {v : UInt16} (hv : v = 5 ∨ v = 4 ∨ v = 3 ∨ v = 2) (type : Packed) :
    NullFits v type ↔ ¬Differs v type := by
  have hold : v = 5 ∨ (v = 4 ∨ v = 2 ∨ v = 3) ∧ ¬5 ≤ v := by
    obtain rfl | rfl | rfl | rfl := hv <;> decide
  cases type with
  | clusterRec | qosRec | txnCond =>
    obtain rfl | rfl | rfl | rfl := hv <;> first
      | exact iff_of_true (consumes_of_accepts rfl) (by unfold Differs; decide)
      | exact stumbling (by decide +kernel) (by unfold Differs; decide)
  | jobCond =>
    obtain rfl | ⟨hold, hlt⟩ := hold
    · exact stumbling (by decide +kernel) (UInt16.le_refl 5)
    · exact iff_of_true (consumes_jobCond hold) hlt
  | archiveCond =>
    obtain rfl | ⟨hold, hlt⟩ := hold
    · exact stumbling (by decide +kernel) (UInt16.le_refl 5)
    · exact iff_of_true (consumes_archiveCond hold) hlt
  | reservationCond =>
    obtain rfl | rfl | rfl | rfl := hv <;> exact stumbling (by decide +kernel) trivial
  | _ =>
    obtain rfl | rfl | rfl | rfl := hv <;>
      exact iff_of_true (consumes_of_accepts rfl) fun h => h

/-- The reader takes just the bytes of the NULL form, for every type and version but the ones
whose NULL form was written for another list of fields. -/
theorem nullFits_iff (rpcVersion : UInt16) (type : Packed) :
    NullFits rpcVersion type ↔ ¬Differs rpcVersion type := by
  rw [← nullFits_era, ← differs_era]
  refine nullFits_of_era ?_ type
  obtain ⟨-, he⟩ | ⟨-, he⟩ | ⟨-, he⟩ | ⟨-, he⟩ := era_cases rpcVersion <;> simp only [he]
  all_goals decide

/-- The reader of a NULL QOS record of version 5 stops one string early. -/
theorem not_nullFits_qosRec : ¬∀ rpcVersion type, NullFits rpcVersion type := by
  intro h
  have hstumbles : stumbles (unpackFields (unpackAcctQosRec 5)) (packAcctQosRecNull 5) = true := by
    decide +kernel
  exact not_consumes_of_stumbles hstumbles (h 5 .qosRec)

end Slurm.AcctStorage
