import SlurmLite.AcctStorage.Records
import SlurmLite.AssocMgr.UsageFile
import SlurmLite.Base.Chains

/-!
# The state file

The lists of the association manager as messages of the accounting protocol, in a file
that starts with the version they were packed for.

* **Messages** (`packListMsg`, `unpackListMsg`): a list of records of one type.
* **Reading** (`loadAssocMgrState`): the version is checked, and the lists are unpacked
  for the newest one.
* **Parents** (`postAssociations`): with the children set up, the loop that normalizes the
  shares of an association goes on as long as there are parents.
* **Restoring** (`state_restored`): which files give their lists back.
-/

namespace Slurm.AssocMgr

open Base.Bytes Base.Chains Base.CLib Slurm.Pack Slurm.AcctStorage

/-! ## Messages -/

/-- `SLURMDBD_VERSION`. -/
def slurmdbdVersion : UInt16 := 5

/-- `SLURMDBD_VERSION_MIN`. -/
def slurmdbdVersionMin : UInt16 := 2

/-- `DBD_ADD_ASSOCS`. -/
def dbdAddAssocs : UInt16 := 1404

/-- `DBD_ADD_USERS`. -/
def dbdAddUsers : UInt16 := 1406

/-- `DBD_ADD_QOS`. -/
def dbdAddQos : UInt16 := 1447

/-- `DBD_ADD_WCKEYS`. -/
def dbdAddWckeys : UInt16 := 1452

/-- `slurmdbd_pack_list_msg`: the count, -1 for a list that is not there, and the records. -/
def packListMsg (rpcVersion : UInt16) (type : RecType) (myList : Option (List type.Rec)) :
    List Item :=
  match myList with
  | none => [.u32 4294967295]
  | some elems => .u32 (UInt32.ofNat elems.length) :: elems.flatMap (type.pack rpcVersion)

/-- `slurmdbd_unpack_list_msg`: a count that is negative as an `int` is no list. -/
def unpackListMsg (rpcVersion : UInt16) (type : RecType) : Unpacker (Option (List type.Rec)) := do
  let count ← unpack32
  if count.toInt32.toInt > -1 then do
    let elems ← unpackMany (type.unpack rpcVersion) count.toNat
    pure (some elems)
  else pure none

/-- The lists of the association manager. -/
structure StateLists where
  associations : Option (List AssociationRec) := none
  users : Option (List UserRec) := none
  qos : Option (List QosRec) := none
  wckeys : Option (List WckeyRec) := none

/-- The message of a list of the association manager; there is none for a list that is not
there. -/
def stateMsg (rpcVersion : UInt16) (type : RecType) (msgType : UInt16)
    (list : Option (List type.Rec)) : List Item :=
  match list with
  | none => []
  | some elems => .u16 msgType :: packListMsg rpcVersion type (some elems)

/-- What `dump_assoc_mgr_state` packs for the state file, as a release with version `ver` does. -/
def stateItems (ver : UInt16) (now : Int64) (lists : StateLists) : List Item :=
  [.u16 ver, .time now] ++
    (stateMsg ver .association dbdAddAssocs lists.associations ++
      (stateMsg ver .user dbdAddUsers lists.users ++
        (stateMsg ver .qos dbdAddQos lists.qos ++
          stateMsg ver .wckey dbdAddWckeys lists.wckeys)))

/-- The bytes of the state file. -/
def stateFile (ver : UInt16) (now : Int64) (lists : StateLists) : List UInt8 :=
  Chunk.flat ((stateItems ver now lists).flatMap Item.chunks)

/-! ## Reading -/

/-- `goto unpack_error`. -/
def unpackError {α : Type} : Unpacker α := fun b => (none, b)

/-- The place of the parent of the association at `i`: the first with its parent id, unless that
is the association itself. The parents that `_set_assoc_parent_and_user` remembers were found so. -/
def parentPlace (assocs : List AssociationRec) (i : Nat) : Option Nat :=
  assocs[i]?.bind fun assoc =>
    if assoc.parentId = 0 then none
    else (assocs.findIdx? (·.id = assoc.parentId)).filter (· ≠ i)

section Reading

variable (setupChildern : Bool) (uidFromString : CString → Option UInt32)

/-- What `_post_association_list` sets of the fields that are packed. -/
def postAssociation (assoc : AssociationRec) : AssociationRec :=
  { assoc with uid := (assoc.user.bind uidFromString).getD Jobacct.noVal }

/-- `_post_association_list`; `none` where `_normalize_assoc_shares` goes round a circle of
parents. -/
def postAssociations (assocs : List AssociationRec) : Option (List AssociationRec) :=
  if setupChildern ∧ ¬∀ i ∈ List.range assocs.length, ends (parentPlace assocs) assocs.length i then
    none
  else some (assocs.map (postAssociation uidFromString))

/-- `_post_user_list`, for one user. -/
def postUser (user : UserRec) : UserRec :=
  { user with uid := (user.name.bind uidFromString).getD Jobacct.noVal }

/-- One turn of the loop over the messages, `none` when it does not end. The lists are unpacked
for `SLURMDBD_VERSION`, whatever the version in the header; a message without a list changes
nothing. -/
def loadMessage (lists : StateLists) : Unpacker (Option StateLists) := do
  let type ← unpack16
  if type = dbdAddAssocs then do
    let myList ← unpackListMsg slurmdbdVersion .association
    pure (match myList with
      | none => some lists
      | some assocs => (postAssociations setupChildern uidFromString assocs).map fun assocs =>
        { lists with associations := some assocs })
  else if type = dbdAddUsers then do
    let myList ← unpackListMsg slurmdbdVersion .user
    pure (some { lists with
      users := (myList.map (List.map (postUser uidFromString))).or lists.users })
  else if type = dbdAddQos then do
    let myList ← unpackListMsg slurmdbdVersion .qos
    pure (some { lists with qos := myList.or lists.qos })
  else if type = dbdAddWckeys then do
    let myList ← unpackListMsg slurmdbdVersion .wckey
    pure (some { lists with wckeys := myList.or lists.wckeys })
  else unpackError

/-- The loop over the messages, for at most so many. -/
def loadMessages : Nat → Buf → StateLists → Option (LoadRc × StateLists)
  | 0, _, lists => some (.success, lists)
  | n + 1, b, lists =>
    if b.remaining = 0 then some (.success, lists)
    else
      match loadMessage setupChildern uidFromString lists b with
      | (none, _) => some (.error, lists)
      | (some none, _) => none
      | (some (some lists), b) => loadMessages n b lists

/-- `load_assoc_mgr_state` of a file that holds `data`; `none` where there is no buffer for
the data or a loop does not end. -/
def loadAssocMgrState (data : List UInt8) (lists : StateLists) :
    Option (LoadRc × StateLists) := do
  let b ← readFile data
  match unpack16 b with
  | (none, _) => some (.error, lists)
  | (some ver, b) =>
    if ver > slurmdbdVersion ∨ ver < slurmdbdVersionMin then some (.efault, lists)
    else
      match unpackTime b with
      | (none, _) => some (.error, lists)
      | (some _, b) => loadMessages setupChildern uidFromString b.remaining b lists

end Reading

/-! ## Layouts -/

/-- The versions that pack a type as the newest one does. -/
def SameLayout (ver : UInt16) : RecType → Prop
  | .association | .user | .account => 4 ≤ ver
  | .qos | .cluster => 5 ≤ ver
  | .wckey => True

section Layouts

variable {ver : UInt16}

theorem associationPack_eq (h : 4 ≤ ver) :
    AssociationRec.pack ver = AssociationRec.pack slurmdbdVersion := by
  funext object
  have h5 : slurmdbdVersion ≥ 4 := by decide
  simp only [AssociationRec.pack, ge_iff_le, if_pos h, if_pos h5]

theorem pack_eq_of_sameLayout {type : RecType} (h : SameLayout ver type) :
    type.pack ver = type.pack slurmdbdVersion := by
  have h5 : slurmdbdVersion ≥ 5 := by decide
  have h4 : slurmdbdVersion ≥ 4 := by decide
  have h3 : slurmdbdVersion ≥ 3 := by decide
  cases type with
  | association => exact associationPack_eq h
  | user =>
    have h : ver ≥ 4 := h
    funext object
    simp only [RecType.pack, UserRec.pack, if_pos h, if_pos h4, associationPack_eq h]
  | account =>
    have h : ver ≥ 4 := h
    have hver : ver ≥ 3 := UInt16.le_trans (by decide) h
    funext object
    simp only [RecType.pack, AccountRec.pack, if_pos hver, if_pos h3, associationPack_eq h]
  | qos =>
    have h : ver ≥ 5 := h
    funext object
    simp only [RecType.pack, QosRec.pack, if_pos h, if_pos h5]
  | cluster =>
    have h : ver ≥ 5 := h
    have hver : ver ≥ 4 := UInt16.le_trans (by decide) h
    have haccounting : ClusterAccountingRec.pack ver =
        ClusterAccountingRec.pack slurmdbdVersion := by
      funext object
      simp only [ClusterAccountingRec.pack, if_pos h, if_pos h5]
    funext object
    simp only [RecType.pack, ClusterRec.pack, if_pos h, if_pos h5, packAcctAssociationRec_eq,
      associationPack_eq hver, haccounting]
  | wckey => rfl

/-- What comes back for the newest version is what the version carries. -/
theorem received_eq_of_sameLayout {type : RecType} (h : SameLayout ver type) :
    type.received slurmdbdVersion = type.carried ver := by
  have h5 : slurmdbdVersion ≥ 5 := by decide
  have h4 : slurmdbdVersion ≥ 4 := by decide
  have h3 : slurmdbdVersion ≥ 3 := by decide
  funext object
  rw [RecType.received_eq_carried h3]
  have hassoc : ver ≥ 3 →
      AssociationRec.carried slurmdbdVersion = AssociationRec.carried ver := by
    intro hver
    funext assoc
    simp only [AssociationRec.carried, if_pos hver, if_pos h3]
  cases type with
  | association => exact congrFun (hassoc (UInt16.le_trans (by decide) h)) object
  | user =>
    have h : ver ≥ 4 := h
    simp only [RecType.carried, UserRec.carried, if_pos h, if_pos h4,
      hassoc (UInt16.le_trans (by decide) h)]
  | account =>
    simp only [RecType.carried, AccountRec.carried, hassoc (UInt16.le_trans (by decide) h)]
  | qos =>
    have h : ver ≥ 5 := h
    simp only [RecType.carried, QosRec.carried, if_pos h, if_pos h5]
  | cluster =>
    have h : ver ≥ 5 := h
    have hver : ver ≥ 3 := UInt16.le_trans (by decide) h
    have haccounting : ClusterAccountingRec.carried slurmdbdVersion =
        ClusterAccountingRec.carried ver := by
      funext object
      simp only [ClusterAccountingRec.carried, if_pos h, if_pos h5]
    simp only [RecType.carried, ClusterRec.carried, AssociationRec.carriedRoot, if_pos h,
      if_pos h5, if_pos hver, if_pos h3, haccounting]
  | wckey => rfl

/-- A list whose layout the version has in common with the newest one, or with no records. -/
theorem unpackListMsg_decodes (ver : UInt16) (type : RecType) {elems : List type.Rec}
    (hlayout : elems = [] ∨ SameLayout ver type) (hcount : elems.length < 2147483648)
    (hcounts : ∀ x ∈ elems, type.Counted x) :
    Decodes (unpackListMsg slurmdbdVersion type) (packListMsg ver type (some elems))
      (some (elems.map (type.carried ver))) := by
  have hnat : (UInt32.ofNat elems.length).toNat = elems.length :=
    UInt32.toNat_ofNat_of_lt' (hcount.trans (by decide))
  have hint : (UInt32.ofNat elems.length).toInt32.toInt > -1 := by
    have hval : (UInt32.ofNat elems.length).toInt32.toInt =
        (UInt32.ofNat elems.length).toBitVec.toInt := rfl
    have htoNat : (UInt32.ofNat elems.length).toBitVec.toNat = elems.length := hnat
    rw [hval, BitVec.toInt_eq_toNat_bmod, htoNat, Int.bmod_def]
    split <;> omega
  have helems : Decodes (unpackMany (type.unpack slurmdbdVersion) elems.length)
      (elems.flatMap (type.pack ver)) (elems.map (type.carried ver)) := by
    obtain rfl | hsame := hlayout
    · exact Decodes.pure []
    · rw [pack_eq_of_sameLayout hsame, ← received_eq_of_sameLayout hsame]
      exact unpackMany_decodes fun x hx => RecType.unpack_decodes slurmdbdVersion (hcounts x hx)
  refine Decodes.u32 ?_
  rw [if_pos hint, hnat]
  exact helems.map

end Layouts

/-! ## Restoring -/

/-- The lists have as many elements as `list_count` can tell. -/
structure StateLists.Counted (lists : StateLists) : Prop where
  associations : CountedAll AssociationRec.Counted lists.associations
  users : CountedAll UserRec.Counted lists.users
  qos : CountedAll QosRec.Counted lists.qos
  wckeys : CountedAll (fun wckey => AcctStorage.Counted wckey.accountingList) lists.wckeys

/-- What a version carries of the lists. -/
def StateLists.carried (ver : UInt16) (lists : StateLists) : StateLists where
  associations := lists.associations.map (List.map (AssociationRec.carried ver))
  users := lists.users.map (List.map (UserRec.carried ver))
  qos := lists.qos.map (List.map (QosRec.carried ver))
  wckeys := lists.wckeys

/-- The lists that are there, in place of others. -/
def StateLists.over (lists old : StateLists) : StateLists where
  associations := lists.associations.or old.associations
  users := lists.users.or old.users
  qos := lists.qos.or old.qos
  wckeys := lists.wckeys.or old.wckeys

/-- The types of records in the lists that the newest version has another layout for. -/
structure Readable (ver : UInt16) (lists : StateLists) : Prop where
  associations : ver < 4 → lists.associations.getD [] = []
  users : ver < 4 → lists.users.getD [] = []
  qos : ver < 5 → lists.qos.getD [] = []

/-- The user ids are those of the system the file is read on, `NO_VAL` for no user. -/
structure CurrentUids (uidFromString : CString → Option UInt32) (lists : StateLists) : Prop where
  associations : ∀ assoc ∈ lists.associations.getD [],
    assoc.uid = (assoc.user.bind uidFromString).getD Jobacct.noVal
  users : ∀ user ∈ lists.users.getD [],
    user.uid = (user.name.bind uidFromString).getD Jobacct.noVal

/-- With the children set up no association is above itself. -/
def Uncircled (setupChildern : Bool) (assocs : List AssociationRec) : Prop :=
  setupChildern = true → Acyclic (parentPlace assocs)

section Parents

variable {setupChildern : Bool} {uidFromString : CString → Option UInt32}
  {assocs : List AssociationRec}

theorem parentPlace_carried (ver : UInt16) (assocs : List AssociationRec) :
    parentPlace (assocs.map (AssociationRec.carried ver)) = parentPlace assocs := by
  have hid : ∀ assoc : AssociationRec, (assoc.carried ver).id = assoc.id := by
    intro assoc
    unfold AssociationRec.carried
    split <;> rfl
  have hparent : ∀ assoc : AssociationRec, (assoc.carried ver).parentId = assoc.parentId := by
    intro assoc
    unfold AssociationRec.carried
    split <;> rfl
  funext i
  unfold parentPlace
  rw [List.getElem?_map, Option.bind_map]
  refine Option.bind_congr fun assoc _ => ?_
  rw [Function.comp_apply, hparent, List.findIdx?_map]
  simp only [Function.comp_def, hid]

theorem parentPlace_lt {i p : Nat} (h : parentPlace assocs i = some p) :
    i < assocs.length ∧ p < assocs.length := by
  obtain ⟨assoc, hi, h⟩ := Option.bind_eq_some_iff.mp h
  split at h
  · cases h
  · exact ⟨(List.getElem?_eq_some_iff.mp hi).1,
      (List.findIdx?_eq_some_iff_getElem.mp (Option.filter_eq_some_iff.mp h).1).1⟩

theorem ends_parentPlace_iff :
    (∀ i ∈ List.range assocs.length, ends (parentPlace assocs) assocs.length i = true) ↔
      Acyclic (parentPlace assocs) := by
  have h := @ends_iff_acyclic _ (parentPlace assocs) (List.range assocs.length)
    (fun i _ p hp => List.mem_range.mpr (parentPlace_lt hp).2) (fun i hi => by
      by_contra hsome
      obtain ⟨p, hp⟩ := Option.ne_none_iff_exists'.mp hsome
      exact hi (List.mem_range.mpr (parentPlace_lt hp).1))
  rwa [List.length_range] at h

/-- The shares are normalized where there is no circle to go round. -/
theorem postAssociations_of_uncircled (h : Uncircled setupChildern assocs) :
    postAssociations setupChildern uidFromString assocs =
      some (assocs.map (postAssociation uidFromString)) := by
  refine if_neg ?_
  rintro ⟨hsetup, hends⟩
  exact hends (ends_parentPlace_iff.mpr (h hsetup))

theorem postAssociations_of_circle (h : ¬Uncircled setupChildern assocs) :
    postAssociations setupChildern uidFromString assocs = none := by
  obtain ⟨hsetup, hcircle⟩ := Classical.not_imp.mp h
  exact if_pos ⟨hsetup, fun hends => hcircle (ends_parentPlace_iff.mp hends)⟩

end Parents

section Messages

variable (setupChildern : Bool) (uidFromString : CString → Option UInt32) {ver : UInt16}

/-- What comes of the rest of a file with these lists. -/
def LoadsTo (rest : List UInt8) (lists : StateLists) (out : Option (LoadRc × StateLists)) : Prop :=
  ∀ n b, b.rest = rest → b.remaining ≤ n →
    loadMessages setupChildern uidFromString n b lists = out

theorem loadsTo_nil (lists : StateLists) :
    LoadsTo setupChildern uidFromString [] lists (some (.success, lists)) := by
  intro n b hrest hn
  have hzero : b.remaining = 0 := by
    rw [← Buf.length_rest, hrest]
    rfl
  cases n with
  | zero => rfl
  | succ n => rw [loadMessages, if_pos hzero]

/-- A message that is read changes the lists for what comes after it, or nothing comes of it. -/
theorem LoadsTo.message {items : List Item} {rest : List UInt8} {lists : StateLists}
    {lists' : Option StateLists} {out : Option (LoadRc × StateLists)}
    (hread : Decodes (loadMessage setupChildern uidFromString lists) items lists')
    (hfit : ∀ i ∈ items, i.Fits) (hpos : 0 < (Chunk.flat (items.flatMap Item.chunks)).length)
    (hnone : lists' = none → out = none)
    (hnext : ∀ next, lists' = some next → LoadsTo setupChildern uidFromString rest next out) :
    LoadsTo setupChildern uidFromString (Chunk.flat (items.flatMap Item.chunks) ++ rest) lists
      out := by
  intro n b hrest hn
  obtain ⟨b', hmsg, -, hrest'⟩ := hread hfit b ⟨_, hrest.symm⟩
  rw [hrest, List.drop_left] at hrest'
  have hremaining : b.remaining =
      (Chunk.flat (items.flatMap Item.chunks)).length + b'.remaining := by
    rw [← Buf.length_rest b, hrest, List.length_append, ← Buf.length_rest b', hrest']
  obtain ⟨n, rfl⟩ : ∃ m, n = m + 1 := ⟨n - 1, by omega⟩
  rw [loadMessages, if_neg (by omega), hmsg]
  cases lists' with
  | none => exact (hnone rfl).symm
  | some next => exact hnext next rfl n b' hrest' (by omega)

theorem stateMsg_pos (type : RecType) (msgType : UInt16) (elems : List type.Rec) :
    0 < (Chunk.flat ((stateMsg ver type msgType (some elems)).flatMap Item.chunks)).length := by
  rw [stateMsg, List.flatMap_cons, Chunk.flat_append, List.length_append, Item.chunks,
    Chunk.flat_singleton, numChunk, length_toBe]
  omega

/-- The message of a list that may not be there, with its records as they are kept. -/
theorem LoadsTo.stateMsg {type : RecType} {msgType : UInt16} {list : Option (List type.Rec)}
    {kept : type.Rec → type.Rec} {rest : List UInt8} {lists : StateLists}
    {out : Option (LoadRc × StateLists)} (set : Option (List type.Rec) → StateLists)
    (hnone : set none = lists)
    (hread : ∀ elems, list = some elems →
      Decodes (loadMessage setupChildern uidFromString lists)
        (stateMsg ver type msgType (some elems)) (some (set (some (elems.map kept)))))
    (hfit : ∀ i ∈ AssocMgr.stateMsg ver type msgType list, i.Fits)
    (hnext : LoadsTo setupChildern uidFromString rest (set (list.map (List.map kept))) out) :
    LoadsTo setupChildern uidFromString
      (Chunk.flat ((AssocMgr.stateMsg ver type msgType list).flatMap Item.chunks) ++ rest)
      lists out := by
  cases list with
  | none =>
    have heq : set none = lists := hnone
    rw [Option.map_none, heq] at hnext
    exact hnext
  | some elems =>
    refine LoadsTo.message setupChildern uidFromString (hread elems rfl) hfit
      (stateMsg_pos type msgType elems) (fun h => by cases h) fun next hsome => ?_
    rw [← Option.some.inj hsome]
    exact hnext

/-- An association of the file as it is kept. -/
def keptAssociation (ver : UInt16) (assoc : AssociationRec) : AssociationRec :=
  postAssociation uidFromString (assoc.carried ver)

/-- A user of the file as it is kept. -/
def keptUser (ver : UInt16) (user : UserRec) : UserRec :=
  postUser uidFromString (user.carried ver)

/-- The lists of a file as they are kept. -/
def StateLists.kept (ver : UInt16) (lists : StateLists) : StateLists :=
  { lists.carried ver with
    associations := lists.associations.map (List.map (keptAssociation uidFromString ver))
    users := lists.users.map (List.map (keptUser uidFromString ver)) }

section Lists

variable {setupChildern uidFromString} {lists : StateLists}

theorem loadMessage_associations (hcounts : lists.Counted) (hreadable : Readable ver lists)
    {old : StateLists} {elems : List AssociationRec} (hlist : lists.associations = some elems) :
    Decodes (loadMessage setupChildern uidFromString old)
      (stateMsg ver .association dbdAddAssocs (some elems))
      ((postAssociations setupChildern uidFromString
        (elems.map (AssociationRec.carried ver))).map fun assocs =>
          { old with associations := some assocs }) := by
  have hread := hreadable.associations
  rw [hlist, Option.getD_some] at hread
  have hlayout : elems = [] ∨ SameLayout ver .association := by
    by_cases h : ver < 4
    · exact Or.inl (hread h)
    · exact Or.inr (UInt16.not_lt.mp h)
  have hmsg := unpackListMsg_decodes ver .association hlayout
    (hcounts.associations.counted elems hlist) (hcounts.associations.all elems hlist)
  refine Decodes.u16 ?_
  rw [if_pos rfl]
  exact hmsg.map

/-- Without a circle the associations are kept. -/
theorem loadMessage_uncircled (hcounts : lists.Counted) (hreadable : Readable ver lists)
    {old : StateLists} {elems : List AssociationRec} (hlist : lists.associations = some elems)
    (hup : Uncircled setupChildern elems) :
    Decodes (loadMessage setupChildern uidFromString old)
      (stateMsg ver .association dbdAddAssocs (some elems))
      (some { old with associations := some (elems.map (keptAssociation uidFromString ver)) }) := by
  have hkept : elems.map (keptAssociation uidFromString ver) =
      (elems.map (AssociationRec.carried ver)).map (postAssociation uidFromString) :=
    List.map_map.symm
  have hcarried : Uncircled setupChildern (elems.map (AssociationRec.carried ver)) := by
    unfold Uncircled
    rwa [parentPlace_carried]
  have hmsg := @loadMessage_associations setupChildern uidFromString _ _ hcounts hreadable old _
    hlist
  rw [postAssociations_of_uncircled hcarried, Option.map_some, ← hkept] at hmsg
  exact hmsg

theorem loadMessage_users (hcounts : lists.Counted) (hreadable : Readable ver lists)
    {old : StateLists} {elems : List UserRec} (hlist : lists.users = some elems) :
    Decodes (loadMessage setupChildern uidFromString old)
      (stateMsg ver .user dbdAddUsers (some elems))
      (some { old with users := some (elems.map (keptUser uidFromString ver)) }) := by
  have hread := hreadable.users
  rw [hlist, Option.getD_some] at hread
  have hlayout : elems = [] ∨ SameLayout ver .user := by
    by_cases h : ver < 4
    · exact Or.inl (hread h)
    · exact Or.inr (UInt16.not_lt.mp h)
  have hmsg := unpackListMsg_decodes ver .user hlayout
    (hcounts.users.counted elems hlist) (hcounts.users.all elems hlist)
  have hkept : elems.map (keptUser uidFromString ver) =
      (elems.map (UserRec.carried ver)).map (postUser uidFromString) :=
    List.map_map.symm
  refine Decodes.u16 ?_
  rw [if_neg (by decide), if_pos rfl, hkept]
  exact hmsg.map

theorem loadMessage_qos (hcounts : lists.Counted) (hreadable : Readable ver lists)
    {old : StateLists} {elems : List QosRec} (hlist : lists.qos = some elems) :
    Decodes (loadMessage setupChildern uidFromString old)
      (stateMsg ver .qos dbdAddQos (some elems))
      (some { old with qos := some (elems.map (QosRec.carried ver)) }) := by
  have hread := hreadable.qos
  rw [hlist, Option.getD_some] at hread
  have hlayout : elems = [] ∨ SameLayout ver .qos := by
    by_cases h : ver < 5
    · exact Or.inl (hread h)
    · exact Or.inr (UInt16.not_lt.mp h)
  have hmsg := unpackListMsg_decodes ver .qos hlayout
    (hcounts.qos.counted elems hlist) (hcounts.qos.all elems hlist)
  refine Decodes.u16 ?_
  rw [if_neg (by decide), if_neg (by decide), if_pos rfl]
  exact hmsg.map

theorem loadMessage_wckeys (hcounts : lists.Counted) {old : StateLists} {elems : List WckeyRec}
    (hlist : lists.wckeys = some elems) :
    Decodes (loadMessage setupChildern uidFromString old)
      (stateMsg ver .wckey dbdAddWckeys (some elems))
      (some { old with wckeys := some (elems.map id) }) := by
  have hmsg := unpackListMsg_decodes ver .wckey (Or.inr trivial)
    (hcounts.wckeys.counted elems hlist) (hcounts.wckeys.all elems hlist)
  refine Decodes.u16 ?_
  rw [if_neg (by decide), if_neg (by decide), if_neg (by decide), if_pos rfl]
  exact hmsg.map

/-- The messages of a file turn any lists into those of the file. -/
theorem loadsTo_stateItems (hcounts : lists.Counted) (hreadable : Readable ver lists)
    {now : Int64} (hfit : ∀ i ∈ stateItems ver now lists, i.Fits)
    (hup : Uncircled setupChildern (lists.associations.getD [])) (old : StateLists) :
    LoadsTo setupChildern uidFromString
      (Chunk.flat ((stateMsg ver .association dbdAddAssocs lists.associations ++
        (stateMsg ver .user dbdAddUsers lists.users ++
          (stateMsg ver .qos dbdAddQos lists.qos ++
            stateMsg ver .wckey dbdAddWckeys lists.wckeys))).flatMap Item.chunks))
      old (some (.success, (lists.kept uidFromString ver).over old)) := by
  have hmem : ∀ {is js : List Item}, (∀ i ∈ is ++ js, i.Fits) →
      (∀ i ∈ is, i.Fits) ∧ ∀ i ∈ js, i.Fits := fun h => List.forall_mem_append.mp h
  obtain ⟨-, hfit⟩ := hmem hfit
  obtain ⟨hfit₁, hfit⟩ := hmem hfit
  obtain ⟨hfit₂, hfit⟩ := hmem hfit
  obtain ⟨hfit₃, hfit₄⟩ := hmem hfit
  simp only [List.flatMap_append, Chunk.flat_append]
  refine LoadsTo.stateMsg setupChildern uidFromString
    (fun list => { old with associations := list.or old.associations }) rfl
    (fun elems hlist => loadMessage_uncircled hcounts hreadable hlist
      (by rwa [hlist, Option.getD_some] at hup)) hfit₁ ?_
  refine LoadsTo.stateMsg setupChildern uidFromString
    (fun list => { old with
      associations := (lists.kept uidFromString ver).associations.or old.associations
      users := list.or old.users }) rfl
    (fun elems hlist => loadMessage_users hcounts hreadable hlist) hfit₂ ?_
  refine LoadsTo.stateMsg setupChildern uidFromString
    (fun list => { old with
      associations := (lists.kept uidFromString ver).associations.or old.associations
      users := (lists.kept uidFromString ver).users.or old.users
      qos := list.or old.qos }) rfl
    (fun elems hlist => loadMessage_qos hcounts hreadable hlist) hfit₃ ?_
  have hid : (lists.wckeys.map (List.map id)).or old.wckeys = lists.wckeys.or old.wckeys := by
    rw [List.map_id_fun, Option.map_id]
    rfl
  rw [← List.append_nil (Chunk.flat _)]
  refine LoadsTo.stateMsg setupChildern uidFromString
    (fun list => { (lists.kept uidFromString ver).over old with
      wckeys := list.or old.wckeys }) rfl
    (fun elems hlist => loadMessage_wckeys hcounts hlist) hfit₄ ?_
  rw [hid]
  exact loadsTo_nil setupChildern uidFromString _

/-- A circle of parents is gone round for ever. -/
theorem loadsTo_circle (hcounts : lists.Counted) (hreadable : Readable ver lists) {now : Int64}
    (hfit : ∀ i ∈ stateItems ver now lists, i.Fits)
    (hcircle : ¬Uncircled setupChildern (lists.associations.getD [])) (old : StateLists) :
    LoadsTo setupChildern uidFromString
      (Chunk.flat ((stateMsg ver .association dbdAddAssocs lists.associations ++
        (stateMsg ver .user dbdAddUsers lists.users ++
          (stateMsg ver .qos dbdAddQos lists.qos ++
            stateMsg ver .wckey dbdAddWckeys lists.wckeys))).flatMap Item.chunks))
      old none := by
  cases hlist : lists.associations with
  | none =>
    rw [hlist, Option.getD_none] at hcircle
    refine absurd (fun _ => acyclic_of_rank (fun _ => 0) fun i p hp => ?_) hcircle
    exact absurd (parentPlace_lt hp).1 (Nat.not_lt_zero i)
  | some elems =>
    rw [hlist, Option.getD_some] at hcircle
    have hcarried : ¬Uncircled setupChildern (elems.map (AssociationRec.carried ver)) := by
      unfold Uncircled
      rwa [parentPlace_carried]
    have hmsg := @loadMessage_associations setupChildern uidFromString _ _ hcounts hreadable old _
      hlist
    rw [postAssociations_of_circle hcarried, Option.map_none] at hmsg
    rw [List.flatMap_append, Chunk.flat_append]
    refine LoadsTo.message setupChildern uidFromString hmsg (fun i hi => hfit i ?_)
      (stateMsg_pos .association dbdAddAssocs elems) (fun _ => rfl) fun next hsome => by cases hsome
    rw [stateItems, hlist]
    exact List.mem_append_right _ (List.mem_append_left _ hi)

end Lists

end Messages

/-- The lists of a file are packed without a refused write into a buffer of this size, and the
file can be read. -/
structure Written (size : Nat) (ver : UInt16) (now : Int64) (lists : StateLists) : Prop where
  granted : Granted size 0 ((stateItems ver now lists).flatMap Item.chunks)
  fits : (stateFile ver now lists).length + bufSize < 2147483648

theorem Written.fit {size : Nat} {ver : UInt16} {now : Int64} {lists : StateLists}
    (h : Written size ver now lists) (hsize : size ≤ maxBufSize) :
    ∀ i ∈ stateItems ver now lists, i.Fits := by
  have hlt : (List.replicate size (0 : UInt8)).length < 4294967296 := by
    rw [List.length_replicate]
    exact Nat.lt_of_le_of_lt hsize (by decide)
  have hg : Granted (Buf.size ⟨List.replicate size 0, 0, Nat.zero_le _, hlt⟩) 0
      ((stateItems ver now lists).flatMap Item.chunks) := by
    rw [Buf.size, List.length_replicate]
    exact h.granted
  exact @fits_of_granted _ ⟨List.replicate size 0, 0, Nat.zero_le _, hlt⟩ hg

/-- The lists of the file, as far as the version carries them, take the place of any others. -/
def Restores (setupChildern : Bool) (uidFromString : CString → Option UInt32) (ver : UInt16)
    (now : Int64) (lists : StateLists) : Prop :=
  ∀ old, loadAssocMgrState setupChildern uidFromString (stateFile ver now lists) old =
    some (.success, (lists.carried ver).over old)

section Load

variable {setupChildern : Bool} {uidFromString : CString → Option UInt32} {size : Nat}
  {ver : UInt16} {now : Int64} {lists : StateLists}

/-- A file of a version that is accepted gives what comes of its messages. -/
theorem loadAssocMgrState_of_loadsTo (hver : slurmdbdVersionMin ≤ ver ∧ ver ≤ slurmdbdVersion)
    (hwritten : Written size ver now lists) {old : StateLists}
    {out : Option (LoadRc × StateLists)}
    (hloads : LoadsTo setupChildern uidFromString
      (Chunk.flat ((stateMsg ver .association dbdAddAssocs lists.associations ++
        (stateMsg ver .user dbdAddUsers lists.users ++
          (stateMsg ver .qos dbdAddQos lists.qos ++
            stateMsg ver .wckey dbdAddWckeys lists.wckeys))).flatMap Item.chunks)) old out) :
    loadAssocMgrState setupChildern uidFromString (stateFile ver now lists) old = out := by
  obtain ⟨b, hb, hrest⟩ := rest_readFile hwritten.fits
  rw [stateFile, stateItems, List.flatMap_append, Chunk.flat_append, List.flatMap_cons,
    List.flatMap_cons, Chunk.flat_append, Chunk.flat_append, Item.chunks, Item.chunks,
    Chunk.flat_singleton, Chunk.flat_singleton, List.append_assoc, List.append_assoc] at hrest
  obtain ⟨b₁, hunpack, -, hrest₁⟩ := Reads.num16 ver b ⟨_, hrest.symm⟩
  rw [hrest] at hrest₁
  have hrest₁' := hrest₁.trans List.drop_left
  obtain ⟨b₂, htime, -, hrest₂⟩ := Reads.time now b₁ ⟨_, hrest₁'.symm⟩
  rw [hrest₁'] at hrest₂
  have hrest₂' := hrest₂.trans List.drop_left
  have hloop := hloads b₂.remaining b₂ hrest₂' (Nat.le_refl _)
  have haccepted : ¬(ver > slurmdbdVersion ∨ ver < slurmdbdVersionMin) := by
    rintro (hgt | hlt)
    · exact UInt16.not_lt.mpr hver.2 hgt
    · exact UInt16.not_lt.mpr hver.1 hlt
  rw [loadAssocMgrState, hb, Option.bind_eq_bind, Option.bind_some, hunpack]
  dsimp only
  rw [if_neg haccepted, htime]
  exact hloop

/-- The lists that the newest version reads as they were packed are those that are kept. -/
theorem loadAssocMgrState_eq (hsize : size ≤ maxBufSize)
    (hver : slurmdbdVersionMin ≤ ver ∧ ver ≤ slurmdbdVersion) (hcounts : lists.Counted)
    (hwritten : Written size ver now lists) (hreadable : Readable ver lists)
    (hup : Uncircled setupChildern (lists.associations.getD [])) (old : StateLists) :
    loadAssocMgrState setupChildern uidFromString (stateFile ver now lists) old =
      some (.success, (lists.kept uidFromString ver).over old) :=
  loadAssocMgrState_of_loadsTo hver hwritten
    (loadsTo_stateItems hcounts hreadable (hwritten.fit hsize) hup old)

end Load

theorem map_getD_eq_iff {α : Type} {f g : α → α} {list : Option (List α)} :
    list.map (List.map f) = list.map (List.map g) ↔ ∀ x ∈ list.getD [], f x = g x := by
  cases list with
  | none => exact iff_of_true rfl fun x hx => absurd hx List.not_mem_nil
  | some elems =>
    rw [Option.map_some, Option.map_some, Option.some.injEq, Option.getD_some]
    exact List.map_inj_left

theorem keptAssociation_eq_iff {uidFromString : CString → Option UInt32} {ver : UInt16}
    {assoc : AssociationRec} :
    keptAssociation uidFromString ver assoc = assoc.carried ver ↔
      assoc.uid = (assoc.user.bind uidFromString).getD Jobacct.noVal := by
  have huid : (assoc.carried ver).uid = assoc.uid := by
    unfold AssociationRec.carried
    split <;> rfl
  have huser : (assoc.carried ver).user = assoc.user := by
    unfold AssociationRec.carried
    split <;> rfl
  rw [← huid, ← huser, keptAssociation, postAssociation]
  constructor
  · exact fun h => (congrArg AssociationRec.uid h).symm
  · intro h
    rw [← h]

theorem keptUser_eq_iff {uidFromString : CString → Option UInt32} {ver : UInt16} {user : UserRec} :
    keptUser uidFromString ver user = user.carried ver ↔
      user.uid = (user.name.bind uidFromString).getD Jobacct.noVal := by
  have huid : (user.carried ver).uid = user.uid := by
    unfold UserRec.carried
    dsimp only
    split <;> rfl
  have hname : (user.carried ver).name = user.name := by
    unfold UserRec.carried
    dsimp only
    split <;> rfl
  rw [← huid, ← hname, keptUser, postUser]
  constructor
  · exact fun h => (congrArg UserRec.uid h).symm
  · intro h
    rw [← h]

/-- What is kept of a file is what its version carries when its user ids are those of the
system. -/
theorem kept_eq_carried_iff {uidFromString : CString → Option UInt32} {ver : UInt16}
    {lists : StateLists} :
    lists.kept uidFromString ver = lists.carried ver ↔ CurrentUids uidFromString lists := by
  unfold StateLists.kept StateLists.carried
  rw [StateLists.mk.injEq, map_getD_eq_iff, map_getD_eq_iff]
  constructor
  · rintro ⟨hassocs, husers, -, -⟩
    exact ⟨fun assoc hmem => keptAssociation_eq_iff.mp (hassocs assoc hmem),
      fun user hmem => keptUser_eq_iff.mp (husers user hmem)⟩
  · intro h
    exact ⟨fun assoc hmem => keptAssociation_eq_iff.mpr (h.associations assoc hmem),
      fun user hmem => keptUser_eq_iff.mpr (h.users user hmem), rfl, rfl⟩

theorem over_nil (lists : StateLists) : lists.over {} = lists := by
  unfold StateLists.over
  simp only [Option.or_none]

/-- The lists of a file that the newest version reads as they were packed are restored exactly
when their user ids are those of the system and the reading ends. -/
theorem restores_iff_of_readable {setupChildern : Bool}
    {uidFromString : CString → Option UInt32} {size : Nat} {ver : UInt16} {now : Int64}
    {lists : StateLists} (hsize : size ≤ maxBufSize)
    (hver : slurmdbdVersionMin ≤ ver ∧ ver ≤ slurmdbdVersion) (hcounts : lists.Counted)
    (hwritten : Written size ver now lists) (hreadable : Readable ver lists) :
    Restores setupChildern uidFromString ver now lists ↔
      CurrentUids uidFromString lists ∧
        Uncircled setupChildern (lists.associations.getD []) := by
  by_cases hup : Uncircled setupChildern (lists.associations.getD [])
  · have hload := @loadAssocMgrState_eq setupChildern uidFromString _ _ _ _ hsize hver hcounts
      hwritten hreadable hup
    rw [← @kept_eq_carried_iff uidFromString ver lists, and_iff_left hup]
    constructor
    · intro h
      have heq := (hload {}).symm.trans (h {})
      rw [over_nil, over_nil] at heq
      exact (Prod.mk.inj (Option.some.inj heq)).2
    · intro h old
      rw [hload old, h]
  · refine iff_of_false (fun h => ?_) fun h => hup h.2
    have hload := @loadAssocMgrState_of_loadsTo setupChildern uidFromString _ _ _ _ hver hwritten
      {} none (loadsTo_circle hcounts hreadable (hwritten.fit hsize) hup {})
    rw [h {}] at hload
    cases hload

theorem readable_newest (lists : StateLists) : Readable slurmdbdVersion lists :=
  ⟨fun h => absurd h (by decide), fun h => absurd h (by decide), fun h => absurd h (by decide)⟩

/-- The root association and a QOS. -/
def rootAndQos : StateLists where
  associations := some [{ acct := some (CString.ofBytes [114]), uid := Jobacct.noVal }]
  qos := some [{ name := some (CString.ofBytes [113]) }]

theorem rootAndQos_counted : rootAndQos.Counted := by
  have hnone : ∀ {α : Type} (p : α → Prop), CountedAll p (none : Option (List α)) := fun p =>
    ⟨counted_none, fun elems hc => by cases hc⟩
  refine ⟨⟨fun elems hc => ?_, fun elems hc x hx => ?_⟩, hnone _,
    ⟨fun elems hc => ?_, fun elems hc x hx => ?_⟩, hnone _⟩
  · rw [← Option.some.inj hc]
    exact Nat.succ_lt_succ (Nat.zero_lt_succ _)
  · rw [← Option.some.inj hc] at hx
    rw [List.mem_singleton.mp hx]
    exact ⟨counted_none, counted_none⟩
  · rw [← Option.some.inj hc]
    exact Nat.succ_lt_succ (Nat.zero_lt_succ _)
  · rw [← Option.some.inj hc] at hx
    rw [List.mem_singleton.mp hx]
    exact ⟨counted_none, counted_none, counted_none⟩

theorem rootAndQos_currentUids : CurrentUids (fun _ => none) rootAndQos := by
  refine ⟨fun assoc hmem => ?_, fun user hmem => absurd hmem List.not_mem_nil⟩
  rw [List.mem_singleton.mp hmem]
  rfl

/-- An old file with an association and a QOS ends in the middle of a record. -/
theorem rootAndQos_error {ver : UInt16} (h : ver = 2 ∨ ver = 3 ∨ ver = 4) :
    Written bufSize ver 0 rootAndQos ∧
      (loadAssocMgrState false (fun _ => none) (stateFile ver 0 rootAndQos) {}).map (·.1) =
        some .error := by
  obtain rfl | rfl | rfl := h <;>
    exact ⟨⟨by decide +kernel, by decide +kernel⟩, by decide +kernel⟩

theorem not_restores_rootAndQos {ver : UInt16} (h : ver = 2 ∨ ver = 3 ∨ ver = 4) :
    ¬Restores false (fun _ => none) ver 0 rootAndQos := by
  intro hrestores
  have herror := (rootAndQos_error h).2
  rw [hrestores {}] at herror
  cases herror

/-- Every file of the version whose reading ends is restored on a system with its user ids. -/
def RestoresAll (ver : UInt16) : Prop :=
  ∀ (setupChildern : Bool) (uidFromString : CString → Option UInt32) (size : Nat) (now : Int64)
    (lists : StateLists), size ≤ maxBufSize → lists.Counted → Written size ver now lists →
    CurrentUids uidFromString lists → Uncircled setupChildern (lists.associations.getD []) →
    Restores setupChildern uidFromString ver now lists

theorem restoresAll_iff {ver : UInt16} (hver : slurmdbdVersionMin ≤ ver ∧ ver ≤ slurmdbdVersion) :
    RestoresAll ver ↔ ver = slurmdbdVersion := by
  constructor
  · intro hall
    by_contra hne
    have hold : ver = 2 ∨ ver = 3 ∨ ver = 4 := by
      have hmin : 2 ≤ ver.toNat := hver.1
      have hmax : ver.toNat ≤ 5 := hver.2
      have hne' : ver.toNat ≠ 5 := fun heq => hne (UInt16.toNat_inj.mp heq)
      have hcases : ver.toNat = 2 ∨ ver.toNat = 3 ∨ ver.toNat = 4 := by omega
      exact hcases.imp UInt16.toNat_inj.mp (Or.imp UInt16.toNat_inj.mp UInt16.toNat_inj.mp)
    exact not_restores_rootAndQos hold (hall false _ bufSize 0 rootAndQos (by decide)
      rootAndQos_counted (rootAndQos_error hold).1 rootAndQos_currentUids fun h => by cases h)
  · rintro rfl setupChildern uidFromString size now lists hsize hcounts hwritten huids hup
    exact (restores_iff_of_readable hsize hver hcounts hwritten (readable_newest lists)).mpr
      ⟨huids, hup⟩

end Slurm.AssocMgr
