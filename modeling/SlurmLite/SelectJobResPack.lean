import SlurmLite.Bitstring.Format
import SlurmLite.JobacctCommon
import SlurmLite.Pack

/-!
# Packing the resources of a job

`build_select_job_res`, `pack_select_job_res`, `unpack_select_job_res` and
`valid_select_job_res`: the sockets and cores of a job's nodes are kept as runs
of equal nodes, and every reader works out how many runs there are.

* **Building** (`Built.run`): the arrays hold runs that stand for the nodes.
* **Packing** (`packLoop_runs`): the loop over the repeat counts finds their end.
* **Checking** (`validLoop_all`): the runs are accepted for the nodes they stand for.
* **Round trip**: `restored_of_built`.

Products of sockets and cores are taken modulo 2^32.
-/

namespace Slurm.JobResources

open Base.Bytes Base.CLib Slurm.Pack Slurm.Bitstring

open Slurm.Jobacct (noVal)

/-- `struct select_job_res`; a pointer that is `NULL` is `none`. -/
structure Resources where
  coreBitmap : Option Bitstr
  coreBitmapUsed : Option Bitstr
  cpuArrayCnt : UInt32
  cpuArrayValue : Option (List UInt16)
  cpuArrayReps : Option (List UInt32)
  cpus : Option (List UInt16)
  cpusUsed : Option (List UInt16)
  coresPerSocket : Option (List UInt16)
  memoryAllocated : Option (List UInt32)
  memoryUsed : Option (List UInt32)
  nhosts : UInt32
  nodeBitmap : Option Bitstr
  nodeReq : UInt8
  nprocs : UInt32
  sockCoreRepCount : Option (List UInt32)
  socketsPerNode : Option (List UInt16)
deriving DecidableEq

/-- What is read of a `struct node_record` and of its configuration. -/
structure NodeRecord where
  sockets : UInt16
  cores : UInt16
  configSockets : UInt16
  configCores : UInt16

/-- The sockets and cores of a node. -/
def NodeRecord.shape (fastSchedule : UInt16) (node : NodeRecord) : UInt16 × UInt16 :=
  if fastSchedule ≠ 0 then (node.configSockets, node.configCores) else (node.sockets, node.cores)

/-- The nodes whose bit is set, in order. -/
def bitsSet (b : Bitstr) : List Nat := (List.range b.nbits).filter (bitTest b)

/-! ## Building -/

/-- The variables of the loop; `cnt` is `sock_inx + 1`. -/
structure Building where
  cnt : Nat
  coreCnt : Int
  sockets : List UInt16
  cores : List UInt16
  reps : List UInt32

/-- One node of the job: a new run, or one more node in the last run. -/
def Building.add (b : Building) (shape : UInt16 × UInt16) : Option Building :=
  let coreCnt := int32 (b.coreCnt + (shape.2.toNat * shape.1.toNat : Nat))
  if b.cnt = 0 ∨ b.sockets[b.cnt - 1]? ≠ some shape.1 ∨ b.cores[b.cnt - 1]? ≠ some shape.2 then
    if b.cnt < b.reps.length then
      some ⟨b.cnt + 1, coreCnt, b.sockets.set b.cnt shape.1, b.cores.set b.cnt shape.2,
        b.reps.modify b.cnt (· + 1)⟩
    else none
  else some { b with coreCnt, reps := b.reps.modify (b.cnt - 1) (· + 1) }

/-- `build_select_job_res`: the result and the structure. -/
def buildSelectJobRes (s : Resources) (nodes : List NodeRecord) (fastSchedule : UInt16) :
    Option (Int × Resources) :=
  match s.nodeBitmap with
  | none => some (-1, s)
  | some nodeBitmap => do
    let n := s.nhosts.toNat
    let b ← (bitsSet nodeBitmap).foldlM
      (fun (b : Building) i => nodes[i]?.bind fun node => b.add (node.shape fastSchedule))
      ⟨0, 0, List.replicate n 0, List.replicate n 0, List.replicate n 0⟩
    -- a bitmap of a negative size, or whose number of words is beyond an int
    if b.coreCnt < 0 ∨ (maxLoop : Int) < b.coreCnt then none
    else
      some (0, { s with
        socketsPerNode := some b.sockets
        coresPerSocket := some b.cores
        sockCoreRepCount := some b.reps
        coreBitmap := some (bitAlloc b.coreCnt.toNat)
        coreBitmapUsed := some (bitAlloc b.coreCnt.toNat) })

/-! ## Checking -/

/-- The loop of `valid_select_job_res` over the nodes of the job. -/
def validLoop (sockets cores : List UInt16) (reps : List UInt32) (nodes : List NodeRecord)
    (fastSchedule : UInt16) : List Nat → Nat → Nat → Option Int
  | [], _, _ => some 0
  | i :: is, sockInx, sockCnt => do
    let node ← nodes[i]?
    let rep ← reps[sockInx]?
    let (sockInx, sockCnt) :=
      if sockCnt ≥ rep.toNat then (sockInx + 1, 0) else (sockInx, sockCnt)
    let socks ← sockets[sockInx]?
    let core ← cores[sockInx]?
    if (node.shape fastSchedule).1 ≠ socks ∨ (node.shape fastSchedule).2 ≠ core then some (-1)
    else validLoop sockets cores reps nodes fastSchedule is sockInx (sockCnt + 1)

/-- `valid_select_job_res`. -/
def validSelectJobRes (s : Resources) (nodes : List NodeRecord) (fastSchedule : UInt16) :
    Option Int :=
  match s.nodeBitmap, s.socketsPerNode, s.coresPerSocket, s.sockCoreRepCount with
  | none, _, _, _ => some (-1)
  | some nodeBitmap, some sockets, some cores, some reps =>
    validLoop sockets cores reps nodes fastSchedule (bitsSet nodeBitmap) 0 0
  | _, _, _, _ => some (-1)

/-- `reset_node_bitmap`, for a bitmap that is not `NULL`. -/
def resetNodeBitmap (s : Resources) (newNodeBitmap : Bitstr) : Resources :=
  { s with nodeBitmap := some newNodeBitmap }

/-! ## Packing -/

/-- The first `n` entries of an array; what is not there cannot be read. -/
def firstOf {α : Type} (n : Nat) (valp : Option (List α)) : Option (List α) :=
  valp.bind fun xs => if n ≤ xs.length then some (xs.take n) else none

/-- The same for an array that may be missing. -/
def firstIfSet {α : Type} (n : Nat) (valp : Option (List α)) : Option (List α) :=
  if valp.isSome then firstOf n valp else some []

/-- `pack16_array`. -/
def pack16Array (vs : List UInt16) : List Item :=
  .u32 (UInt32.ofNat vs.length) :: vs.map .u16

/-- The text of a bitmap as it is packed. -/
def packBitFmt (b : Bitstr) : Option Item :=
  (bitFmt 65534 b).map fun text =>
    .str (some (CString.ofBytes (text.map fun c => UInt8.ofNat c.toNat)))

/-- The CPU counts in runs. -/
def packCpuArray (s : Resources) : Option (List Item) :=
  if s.cpuArrayCnt ≠ 0 ∧ s.cpuArrayReps.isSome ∧ s.cpuArrayValue.isSome then do
    let reps ← firstOf s.cpuArrayCnt.toNat s.cpuArrayReps
    let value ← firstOf s.cpuArrayCnt.toNat s.cpuArrayValue
    some (.u32 s.cpuArrayCnt :: .u32Array reps :: pack16Array value)
  else some [.u32 0]

/-- The loop that counts the runs and the cores, from run `i` on. -/
def packLoop (sockets cores : List UInt16) (reps : List UInt32) (nhosts : Nat) :
    Nat → Nat → Nat → Nat → Option (Nat × Nat)
  | 0, i, coreCnt, _ => some (i, coreCnt)
  | fuel + 1, i, coreCnt, sockRecs => do
    let socks ← sockets[i]?
    let core ← cores[i]?
    let rep ← reps[i]?
    let coreCnt := uint32 (coreCnt + (socks.toNat * core.toNat * rep.toNat : Nat))
    let sockRecs := uint32 (sockRecs + rep.toNat)
    if sockRecs ≥ nhosts then some (i, coreCnt)
    else packLoop sockets cores reps nhosts fuel (i + 1) coreCnt sockRecs

/-- A core bitmap, which has to have the size that was counted. -/
def packCores (coreCnt : Nat) (b : Option Bitstr) : Option Item :=
  b.bind fun b => if coreCnt = b.nbits then packBitFmt b else none

/-- `pack_select_job_res`. -/
def packSelectJobRes : Option Resources → Option (List Item)
  | none => some [.u32 noVal]
  | some s => do
    let n := s.nhosts.toNat
    let cpuArray ← packCpuArray s
    let cpus ← firstOf n s.cpus
    let cpusUsed ← firstIfSet n s.cpusUsed
    let memoryAllocated ← firstIfSet n s.memoryAllocated
    let memoryUsed ← firstIfSet n s.memoryUsed
    let sockets ← s.socketsPerNode
    let cores ← s.coresPerSocket
    let reps ← s.sockCoreRepCount
    let (i, coreCnt) ← packLoop sockets cores reps n n 0 0 0
    let sockets ← firstOf (i + 1) (some sockets)
    let cores ← firstOf (i + 1) (some cores)
    let reps ← firstOf (i + 1) (some reps)
    let core ← packCores coreCnt s.coreBitmap
    let coreUsed ← packCores coreCnt s.coreBitmapUsed
    if n = 0 then none
    else
      some ([.u32 s.nhosts, .u32 s.nprocs, .u8 s.nodeReq] ++ cpuArray ++ pack16Array cpus ++
        pack16Array cpusUsed ++ [.u32Array memoryAllocated, .u32Array memoryUsed] ++
        pack16Array sockets ++ pack16Array cores ++ [.u32Array reps] ++
        [.u32 (UInt32.ofNat coreCnt), core, coreUsed])

/-! ## Unpacking -/

/-- `goto unpack_error`, unless the condition holds. -/
def expect (c : Bool) : Unpacker Unit := if c then pure () else fun b => (none, b)

/-- `unpack16_array`. -/
def unpack16Array : Unpacker (List UInt16) := do
  let size ← unpack32
  unpackMany unpack16 size.toNat

/-- An array that is freed if it is empty. -/
def unpackIfSet {α : Type} (u : Unpacker (List α)) : Unpacker (Option (List α)) := do
  let valp ← u
  pure (if valp.length = 0 then none else some valp)

/-- The CPU counts in runs. -/
def unpackCpuArray :
    Unpacker (UInt32 × Option (List UInt32) × Option (List UInt16)) := do
  let cnt ← unpack32
  if cnt ≠ 0 then do
    let reps ← unpack32Array
    expect (reps.length = cnt.toNat)
    let value ← unpack16Array
    expect (value.length = cnt.toNat)
    pure (cnt, some reps, some value)
  else pure (cnt, none, none)

/-- A core bitmap. The text is never the NULL pointer. -/
def unpackCores (coreCnt : UInt32) : Unpacker Bitstr := do
  let bitFmt ← unpackstr
  expect bitFmt.isSome
  let text := (bitFmt.map fun s => s.1.map fun u => Char.ofNat u.toNat).getD []
  let (rc, b) := bitUnfmt (bitAlloc (int32 coreCnt.toNat).toNat) text
  expect (rc = 0)
  pure b

/-- `unpack_select_job_res`. -/
def unpackSelectJobRes : Unpacker (Option Resources) := do
  let empty ← unpack32
  if empty = noVal then pure none
  else do
    let nprocs ← unpack32
    let nodeReq ← unpack8
    let (cpuArrayCnt, cpuArrayReps, cpuArrayValue) ← unpackCpuArray
    let cpus ← unpack16Array
    expect (cpus.length = empty.toNat)
    let cpusUsed ← unpackIfSet unpack16Array
    let memoryAllocated ← unpackIfSet unpack32Array
    expect (memoryAllocated.all fun valp => valp.length = empty.toNat)
    let memoryUsed ← unpackIfSet unpack32Array
    let socketsPerNode ← unpack16Array
    let coresPerSocket ← unpack16Array
    let sockCoreRepCount ← unpack32Array
    let coreCnt ← unpack32
    let coreBitmap ← unpackCores coreCnt
    let coreBitmapUsed ← unpackCores coreCnt
    pure (some
      { coreBitmap := some coreBitmap, coreBitmapUsed := some coreBitmapUsed
        cpuArrayCnt, cpuArrayValue, cpuArrayReps, cpus := some cpus, cpusUsed
        coresPerSocket := some coresPerSocket, memoryAllocated, memoryUsed, nhosts := empty
        nodeBitmap := none, nodeReq, nprocs, sockCoreRepCount := some sockCoreRepCount
        socketsPerNode := some socketsPerNode })

/-! ## Runs of equal nodes -/

/-- Nodes of the same sockets and cores, one after the other. -/
structure NodeRun where
  sockets : UInt16
  cores : UInt16
  reps : UInt32
deriving DecidableEq

/-- The sockets and cores of each node of a run. -/
def NodeRun.shape (r : NodeRun) : UInt16 × UInt16 := (r.sockets, r.cores)

/-- The sockets and cores of each node. -/
def shapesOf (runs : List NodeRun) : List (UInt16 × UInt16) :=
  runs.flatMap fun r => List.replicate r.reps.toNat r.shape

/-- The number of cores of some nodes. -/
def coresOf (shapes : List (UInt16 × UInt16)) : Nat :=
  (shapes.map fun s => s.2.toNat * s.1.toNat).sum

/-- Nodes of the node table have these sockets and cores. -/
def ShapesOf (nodes : List NodeRecord) (fastSchedule : UInt16) :
    List Nat → List (UInt16 × UInt16) → Prop :=
  List.Forall₂ fun i shape => ∃ node, nodes[i]? = some node ∧ node.shape fastSchedule = shape

@[simp] theorem shapesOf_nil : shapesOf [] = [] := rfl

@[simp] theorem shapesOf_cons (r : NodeRun) (runs : List NodeRun) :
    shapesOf (r :: runs) = List.replicate r.reps.toNat r.shape ++ shapesOf runs := List.flatMap_cons

@[simp] theorem shapesOf_append (runs runs' : List NodeRun) :
    shapesOf (runs ++ runs') = shapesOf runs ++ shapesOf runs' := List.flatMap_append

@[simp] theorem coresOf_append (shapes shapes' : List (UInt16 × UInt16)) :
    coresOf (shapes ++ shapes') = coresOf shapes + coresOf shapes' := by
  simp [coresOf]

@[simp] theorem coresOf_replicate (n : Nat) (shape : UInt16 × UInt16) :
    coresOf (List.replicate n shape) = n * (shape.2.toNat * shape.1.toNat) := by
  simp [coresOf]

/-- Runs that are not empty are as many as their nodes at most. -/
theorem length_le_shapesOf {runs : List NodeRun} (hpos : ∀ r ∈ runs, 0 < r.reps.toNat) :
    runs.length ≤ (shapesOf runs).length := by
  induction runs with
  | nil => exact Nat.le_refl 0
  | cons r runs ih =>
    have hr := hpos r List.mem_cons_self
    have hruns := ih fun r' hr' => hpos r' (List.mem_cons_of_mem _ hr')
    rw [shapesOf_cons, List.length_append, List.length_replicate, List.length_cons]
    omega

theorem length_shapesOf (runs : List NodeRun) :
    (shapesOf runs).length = ((runs.map NodeRun.reps).map UInt32.toNat).sum := by
  induction runs with
  | nil => rfl
  | cons r runs ih =>
    rw [shapesOf_cons, List.length_append, List.length_replicate, ih, List.map_cons,
      List.map_cons, List.sum_cons]

/-! ## What is built -/

/-- An array of `n` entries whose first ones are used. -/
def padded {α : Type} (n : Nat) (xs : List α) (zero : α) : List α :=
  xs ++ List.replicate (n - xs.length) zero

section Padded

variable {α : Type} {n : Nat} {xs : List α} {zero x : α}

theorem length_padded (h : xs.length ≤ n) : (padded n xs zero).length = n := by
  rw [padded, List.length_append, List.length_replicate]
  omega

theorem take_padded : (padded n xs zero).take xs.length = xs := List.take_left

theorem take_padded_map {β : Type} {rs : List β} (f : β → α) :
    (padded n (rs.map f) zero).take rs.length = rs.map f := by
  rw [← List.length_map (f := f), take_padded]

theorem getElem?_padded {i : Nat} (hi : i < xs.length) : (padded n xs zero)[i]? = xs[i]? :=
  List.getElem?_append_left hi

theorem padded_eq_cons (h : xs.length < n) :
    padded n xs zero = xs ++ zero :: List.replicate (n - (xs.length + 1)) zero := by
  rw [padded, show n - xs.length = n - (xs.length + 1) + 1 by omega, List.replicate_succ]

theorem set_padded (h : xs.length < n) :
    (padded n xs zero).set xs.length x = padded n (xs ++ [x]) zero := by
  rw [padded_eq_cons h, List.set_append_right _ _ (Nat.le_refl _), Nat.sub_self, List.set_cons_zero,
    padded, List.length_append, List.length_singleton, List.append_assoc]
  rfl

theorem modify_length (f : α → α) (ys zs : List α) (y : α) :
    (ys ++ y :: zs).modify ys.length f = ys ++ f y :: zs := by
  induction ys with
  | nil => rfl
  | cons z ys ih =>
    rw [List.cons_append, List.length_cons, List.modify_succ_cons, ih]
    rfl

theorem modify_padded (f : α → α) (h : xs.length < n) :
    (padded n xs zero).modify xs.length f = padded n (xs ++ [f zero]) zero := by
  rw [padded_eq_cons h, modify_length, padded, List.length_append, List.length_singleton,
    List.append_assoc]
  rfl

theorem modify_last (f : α → α) (y : α) :
    (padded n (xs ++ [y]) zero).modify xs.length f = padded n (xs ++ [f y]) zero := by
  simp only [padded, List.append_assoc, List.singleton_append, List.length_append,
    List.length_singleton]
  exact modify_length f xs _ y

end Padded

/-- The variables of `build_select_job_res` after the nodes of some shapes: the
arrays hold runs that stand for them. -/
structure Built (n : Nat) (shapes : List (UInt16 × UInt16)) (runs : List NodeRun)
    (b : Building) : Prop where
  cnt : b.cnt = runs.length
  coreCnt : b.coreCnt = int32 (coresOf shapes)
  sockets : b.sockets = padded n (runs.map NodeRun.sockets) 0
  cores : b.cores = padded n (runs.map NodeRun.cores) 0
  reps : b.reps = padded n (runs.map NodeRun.reps) 0
  stand : shapesOf runs = shapes
  pos : ∀ r ∈ runs, 0 < r.reps.toNat

theorem built_start (n : Nat) :
    Built n [] [] ⟨0, 0, List.replicate n 0, List.replicate n 0, List.replicate n 0⟩ :=
  ⟨rfl, rfl, rfl, rfl, rfl, rfl, fun _ hr => absurd hr List.not_mem_nil⟩

/-- One node more. -/
theorem Built.add {n : Nat} {shapes : List (UInt16 × UInt16)} {runs : List NodeRun}
    {b b' : Building} {shape : UInt16 × UInt16} (h : Built n shapes runs b)
    (hn : shapes.length < n) (hsmall : n < 4294967296) (hadd : b.add shape = some b') :
    ∃ runs', Built n (shapes ++ [shape]) runs' b' := by
  have hle := length_le_shapesOf h.pos
  rw [h.stand] at hle
  have hcores : int32 (b.coreCnt + (shape.2.toNat * shape.1.toNat : Nat)) =
      int32 (coresOf (shapes ++ [shape])) := by
    rw [h.coreCnt, int32_int32_add, coresOf_append]
    simp [coresOf]
  rw [Building.add] at hadd
  split at hadd
  · -- a new run
    split at hadd
    · obtain rfl := Option.some.inj hadd
      refine ⟨runs ++ [⟨shape.1, shape.2, 1⟩], ?_, hcores, ?_, ?_, ?_, ?_, ?_⟩
      · rw [h.cnt, List.length_append, List.length_singleton]
      · rw [h.sockets, h.cnt, ← List.length_map (f := NodeRun.sockets),
          set_padded (by rw [List.length_map]; omega), List.map_append]
        rfl
      · rw [h.cores, h.cnt, ← List.length_map (f := NodeRun.cores),
          set_padded (by rw [List.length_map]; omega), List.map_append]
        rfl
      · rw [h.reps, h.cnt, ← List.length_map (f := NodeRun.reps),
          modify_padded _ (by rw [List.length_map]; omega), List.map_append]
        rfl
      · rw [shapesOf_append, h.stand]
        rfl
      · intro r hr
        obtain hr | hr := List.mem_append.mp hr
        · exact h.pos r hr
        · obtain rfl := List.mem_singleton.mp hr
          exact Nat.one_pos
    · cases hadd
  · -- one more node in the last run
    rename_i hsame
    obtain rfl := Option.some.inj hadd
    rw [not_or, not_or, not_not, not_not] at hsame
    obtain ⟨hcnt, hsock, hcore⟩ := hsame
    obtain ⟨front, r, rfl⟩ := (List.eq_nil_or_concat' runs).resolve_left fun hnil => by
      rw [h.cnt, hnil] at hcnt
      exact hcnt rfl
    have hlast : b.cnt - 1 = front.length := by
      rw [h.cnt, List.length_append, List.length_singleton, Nat.add_sub_cancel]
    -- the last run has the shape of the node
    have hshape : r.shape = shape := by
      rw [hlast, h.sockets, getElem?_padded (by simp)] at hsock
      rw [hlast, h.cores, getElem?_padded (by simp)] at hcore
      simp only [List.map_append, List.map_cons, List.map_nil] at hsock hcore
      rw [← List.length_map (f := NodeRun.sockets), List.getElem?_concat_length] at hsock
      rw [← List.length_map (f := NodeRun.cores), List.getElem?_concat_length] at hcore
      exact Prod.ext (Option.some.inj hsock) (Option.some.inj hcore)
    have hstand := h.stand
    rw [shapesOf_append] at hstand
    -- there are fewer nodes than a count holds
    have hreps : (r.reps + 1).toNat = r.reps.toNat + 1 := by
      have hlen := congrArg List.length hstand
      simp only [shapesOf_cons, List.length_append, List.length_replicate] at hlen
      rw [UInt32.toNat_add]
      exact Nat.mod_eq_of_lt (by simp; omega)
    refine ⟨front ++ [{ r with reps := r.reps + 1 }], ?_, hcores, ?_, ?_, ?_, ?_, ?_⟩
    · rw [h.cnt]
      simp
    · rw [h.sockets]
      simp
    · rw [h.cores]
      simp
    · simp only [hlast, h.reps, List.map_append, List.map_cons, List.map_nil]
      rw [← List.length_map (f := NodeRun.reps), modify_last]
    · have hrun : (shapesOf [{ r with reps := r.reps + 1 }]) = shapesOf [r] ++ [shape] := by
        simp only [shapesOf_cons, shapesOf_nil, List.append_nil, hreps, List.replicate_succ',
          ← hshape]
        rfl
      rw [shapesOf_append, hrun, ← List.append_assoc, hstand]
    · intro r' hr'
      obtain hr' | hr' := List.mem_append.mp hr'
      · exact h.pos r' (List.mem_append_left _ hr')
      · obtain rfl := List.mem_singleton.mp hr'
        rw [hreps]
        exact Nat.succ_pos _

/-- All nodes of the job. -/
theorem Built.run {n : Nat} {shapes : List (UInt16 × UInt16)} {runs : List NodeRun}
    {nodes : List NodeRecord} {fastSchedule : UInt16} {is : List Nat} {b b' : Building}
    (h : Built n shapes runs b) (hn : shapes.length + is.length ≤ n) (hsmall : n < 4294967296)
    (hrun : is.foldlM (fun (b : Building) i =>
      nodes[i]?.bind fun node => b.add (node.shape fastSchedule)) b = some b') :
    ∃ more runs', ShapesOf nodes fastSchedule is more ∧ Built n (shapes ++ more) runs' b' := by
  induction is generalizing shapes runs b with
  | nil =>
    obtain rfl := Option.some.inj hrun
    exact ⟨[], runs, List.Forall₂.nil, by rwa [List.append_nil]⟩
  | cons i is ih =>
    rw [List.length_cons] at hn
    rw [List.foldlM_cons] at hrun
    obtain ⟨b₁, hnode, hrest⟩ := Option.bind_eq_some_iff.mp hrun
    obtain ⟨node, hget, hadd⟩ := Option.bind_eq_some_iff.mp hnode
    obtain ⟨runs₁, h₁⟩ := h.add (by omega) hsmall hadd
    obtain ⟨more, runs', hmore, hbuilt⟩ := ih h₁ (by simp; omega) hrest
    refine ⟨node.shape fastSchedule :: more, runs', .cons ⟨node, hget, rfl⟩ hmore, ?_⟩
    rwa [List.append_assoc] at hbuilt

/-! ## The runs are found again -/

/-- The loop of the packing function ends at the last run and has counted all
cores. -/
theorem packLoop_runs {n : Nat} {done todo : List NodeRun}
    (hn : (shapesOf (done ++ todo)).length = n) (hsmall : n < 4294967296)
    (hpos : ∀ r ∈ todo, 0 < r.reps.toNat) (htodo : todo ≠ []) {fuel c : Nat}
    (hfuel : todo.length ≤ fuel) :
    packLoop (padded n ((done ++ todo).map NodeRun.sockets) 0)
        (padded n ((done ++ todo).map NodeRun.cores) 0)
        (padded n ((done ++ todo).map NodeRun.reps) 0) n fuel done.length c
        (shapesOf done).length =
      some (done.length + todo.length - 1, uint32 ((c + coresOf (shapesOf todo) : Nat) : Int)) := by
  induction todo generalizing done fuel c with
  | nil => exact absurd rfl htodo
  | cons r todo ih =>
    obtain ⟨fuel, rfl⟩ : ∃ k, fuel = k + 1 :=
      ⟨fuel - 1, by rw [List.length_cons] at hfuel; omega⟩
    have hread : ∀ {α : Type} (f : NodeRun → α) (zero : α),
        (padded n ((done ++ r :: todo).map f) zero)[done.length]? = some (f r) := by
      intro α f zero
      rw [getElem?_padded (by simp)]
      simp
    have hlen := hn
    simp only [shapesOf_append, shapesOf_cons, List.length_append, List.length_replicate] at hlen
    have hrecs : uint32 (((shapesOf done).length + r.reps.toNat : Nat) : Int) =
        (shapesOf (done ++ [r])).length := by
      rw [uint32_of_lt (by omega)]
      simp
    have hcores : r.sockets.toNat * r.cores.toNat * r.reps.toNat =
        coresOf (shapesOf [r]) := by
      simp only [shapesOf_cons, shapesOf_nil, List.append_nil, coresOf_replicate, NodeRun.shape]
      ring
    rw [packLoop, hread, hread, hread]
    simp only [Option.bind_eq_bind, Option.bind_some]
    rw [← Nat.cast_add, ← Nat.cast_add, hrecs, hcores]
    by_cases hlast : todo = []
    · -- the last run: all nodes are counted
      subst hlast
      rw [if_pos (by simp at hlen ⊢; omega)]
      simp
    · obtain ⟨r', rest, rfl⟩ := List.exists_cons_of_ne_nil hlast
      have hnext := hpos r' (by simp)
      rw [if_neg (by simp at hlen ⊢; omega)]
      have hrest := @ih (done ++ [r]) (by simpa using hn)
        (fun r'' hr'' => hpos r'' (List.mem_cons_of_mem _ hr'')) (List.cons_ne_nil _ _) fuel
        (uint32 ((c + coresOf (shapesOf [r]) : Nat) : Int))
        (by rw [List.length_cons] at hfuel; omega)
      rw [List.append_assoc, List.length_append] at hrest
      refine hrest.trans ?_
      congr 2
      · simp only [List.length_cons, List.length_nil]
        omega
      · simp only [shapesOf_cons, shapesOf_nil, coresOf_append, List.append_nil]
        unfold uint32
        omega

/-- The nodes that runs stand for are accepted; `k` nodes of run `r` are behind. -/
theorem validLoop_runs {nodes : List NodeRecord} {fastSchedule : UInt16} {done todo : List NodeRun}
    {r : NodeRun} {k : Nat} {is : List Nat} {shapes : List (UInt16 × UInt16)}
    (hshapes : ShapesOf nodes fastSchedule is shapes) (hk : k ≤ r.reps.toNat)
    (hpos : ∀ r' ∈ todo, 0 < r'.reps.toNat)
    (hstand : List.replicate (r.reps.toNat - k) r.shape ++ shapesOf todo = shapes) :
    validLoop ((done ++ r :: todo).map NodeRun.sockets) ((done ++ r :: todo).map NodeRun.cores)
      ((done ++ r :: todo).map NodeRun.reps) nodes fastSchedule is done.length k = some 0 := by
  induction hshapes generalizing done todo r k with
  | nil => rfl
  | @cons i shape is shapes hnode _ ih =>
    obtain ⟨node, hget, hshape⟩ := hnode
    have hrep : ((done ++ r :: todo).map NodeRun.reps)[done.length]? = some r.reps := by
      simp
    rw [validLoop, hget, hrep]
    simp only [Option.bind_eq_bind, Option.bind_some]
    by_cases hend : r.reps.toNat ≤ k
    · -- the run is used up, and the node is the first of the next one
      rw [if_pos hend]
      obtain rfl : k = r.reps.toNat := Nat.le_antisymm hk hend
      rw [Nat.sub_self, List.replicate_zero, List.nil_append] at hstand
      obtain _ | ⟨r', todo⟩ := todo
      · cases hstand
      · have hr' := hpos r' List.mem_cons_self
        obtain ⟨m, hm⟩ : ∃ m, r'.reps.toNat = m + 1 := ⟨r'.reps.toNat - 1, by omega⟩
        rw [shapesOf_cons, hm, List.replicate_succ, List.cons_append] at hstand
        obtain ⟨rfl, hrest⟩ := List.cons.inj hstand
        have hnext := @ih (done ++ [r]) todo r' 1 (by omega)
          (fun r'' hr'' => hpos r'' (List.mem_cons_of_mem _ hr''))
          (by rw [hm, Nat.add_sub_cancel]; exact hrest)
        have hread : ∀ {α : Type} (f : NodeRun → α),
            ((done ++ r :: r' :: todo).map f)[done.length + 1]? = some (f r') := by
          intro α f
          simp
        rw [hread, hread]
        simp only [Option.bind_some, hshape, NodeRun.shape, ne_eq, not_true, or_self, if_false]
        rw [List.append_assoc, List.length_append] at hnext
        exact hnext
    · -- one more node of the run
      rw [if_neg hend]
      obtain ⟨m, hm⟩ : ∃ m, r.reps.toNat - k = m + 1 := ⟨r.reps.toNat - k - 1, by omega⟩
      rw [hm, List.replicate_succ, List.cons_append] at hstand
      obtain ⟨rfl, hrest⟩ := List.cons.inj hstand
      have hread : ∀ {α : Type} (f : NodeRun → α),
          ((done ++ r :: todo).map f)[done.length]? = some (f r) := by
        intro α f
        simp
      rw [hread, hread]
      simp only [Option.bind_some, hshape, NodeRun.shape, ne_eq, not_true, or_self, if_false]
      exact @ih done todo r (k + 1) (by omega) hpos
        (by rw [show r.reps.toNat - (k + 1) = m by omega]; exact hrest)

/-- All nodes of the job are accepted. -/
theorem validLoop_all {nodes : List NodeRecord} {fastSchedule : UInt16} {runs : List NodeRun}
    {is : List Nat} (hshapes : ShapesOf nodes fastSchedule is (shapesOf runs))
    (hpos : ∀ r ∈ runs, 0 < r.reps.toNat) :
    validLoop (runs.map NodeRun.sockets) (runs.map NodeRun.cores) (runs.map NodeRun.reps) nodes
      fastSchedule is 0 0 = some 0 := by
  cases runs with
  | nil =>
    obtain rfl := List.forall₂_nil_right_iff.mp hshapes
    rfl
  | cons r runs =>
    exact @validLoop_runs nodes fastSchedule [] runs r 0 is _ hshapes (Nat.zero_le _)
      (fun r' hr' => hpos r' (List.mem_cons_of_mem _ hr')) rfl

/-! ## Fresh bitmaps -/

/-- A bitmap without bits is printed as the empty text. -/
theorem packBitFmt_bitAlloc {n : Nat} (h : n ≤ maxLoop) :
    packBitFmt (bitAlloc n) = some (.str (some (CString.ofBytes []))) := by
  have hmax : (bitAlloc n).nbits ≤ maxBits := Nat.le_trans h (by decide)
  obtain ⟨runs, hruns⟩ := @fmtLoop_of_ends (bitAlloc n) hmax (Or.inl h) (bitAlloc n).nbits 0
    (by omega) (Or.inl rfl)
  have hspec := fmtLoop_spec (Or.inl rfl) hruns
  obtain rfl := hspec.empty_iff.mp fun i _ => bit_bitAlloc n i
  rw [packBitFmt, bitFmt, fmtRuns, hruns]
  rfl

theorem unpackCores_decodes {coreCnt : Nat} (h : coreCnt ≤ maxLoop) :
    Decodes (unpackCores (UInt32.ofNat coreCnt)) [.str (some (CString.ofBytes []))]
      (bitAlloc coreCnt) := by
  have hloop : maxLoop = 2147483616 := rfl
  have hcnt : (int32 ((UInt32.ofNat coreCnt).toNat : Nat)).toNat = coreCnt := by
    have hlt : coreCnt < 4294967296 := by omega
    rw [UInt32.toNat_ofNat_of_lt' hlt, int32_of_range (by omega) (by omega), Int.toNat_natCast]
  refine Decodes.str ?_
  rw [hcnt]
  exact Decodes.pure _

/-! ## Unpacking -/

/-- A condition that holds reads nothing. -/
theorem expect_decodes {α : Type} {c : Bool} {u : Unpacker α} {items : List Item} {x : α}
    (hc : c = true) (h : Decodes u items x) : Decodes (expect c >>= fun _ => u) items x := by
  subst hc
  exact h

theorem decodes_cons {α β : Type} {u : Unpacker α} {f : α → Unpacker β} {i : Item}
    {items : List Item} {x : α} {y : β} (hu : Decodes u [i] x) (hf : Decodes (f x) items y) :
    Decodes (u >>= f) (i :: items) y := hu.append hf

/-- What follows the last item reads nothing. -/
theorem decodes_last {α β : Type} {u : Unpacker α} {f : α → Unpacker β} {items : List Item}
    {x : α} {y : β} (hu : Decodes u items x) (hf : Decodes (f x) [] y) :
    Decodes (u >>= f) items y := by
  have h := hu.append hf
  rwa [List.append_nil] at h

theorem decodes_u8 {α : Type} {f : UInt8 → Unpacker α} {val : UInt8} {items : List Item} {x : α}
    (h : Decodes (f val) items x) : Decodes (unpack8 >>= f) (.u8 val :: items) x :=
  Decodes.cons (i := .u8 val) (fun _ => by
    rw [Item.chunks, numChunk, Chunk.flat_singleton]
    exact Reads.num8 val) h

theorem unpack32Array_decodes (vs : List UInt32) : Decodes unpack32Array [.u32Array vs] vs := by
  intro hfit
  rw [List.flatMap_singleton]
  exact Reads.array32 (hfit _ (List.mem_singleton_self _))

theorem unpack16Array_decodes {vs : List UInt16} (h : vs.length < 4294967296) :
    Decodes unpack16Array (pack16Array vs) vs := by
  refine Decodes.u32 ?_
  rw [UInt32.toNat_ofNat_of_lt' h]
  induction vs with
  | nil => exact Decodes.pure []
  | cons v vs ih => exact Decodes.u16 (ih (Nat.lt_of_succ_lt h)).map

/-- An array that may be missing; it is not empty. -/
theorem unpackIfSet_decodes {α : Type} {u : Unpacker (List α)} {items : List Item}
    {valp : Option (List α)} (h : Decodes u items (valp.getD []))
    (hne : ∀ vs, valp = some vs → vs ≠ []) : Decodes (unpackIfSet u) items valp := by
  have hread := h.map (f := fun valp => if valp.length = 0 then none else some valp)
  cases valp with
  | none => exact hread
  | some vs =>
    have hpos : vs.length ≠ 0 := fun hzero => hne vs rfl (List.length_eq_zero_iff.mp hzero)
    rw [Option.getD_some, if_neg hpos] at hread
    exact hread

/-! ## Round trip -/

/-- A structure that can be packed: there is a CPU count for each node of the
node bitmap, and an array that is not missing has an entry for each of its
counts. -/
structure Resources.Filled (s : Resources) : Prop where
  nodes : ∃ b, s.nodeBitmap = some b ∧ b.nbits ≤ maxBits ∧ (bitsSet b).length = s.nhosts.toNat
  nhosts : 0 < s.nhosts.toNat
  cpus : ∃ cpus, s.cpus = some cpus ∧ cpus.length = s.nhosts.toNat
  cpusUsed : ∀ cpusUsed, s.cpusUsed = some cpusUsed → cpusUsed.length = s.nhosts.toNat
  memoryAllocated : ∀ memory, s.memoryAllocated = some memory → memory.length = s.nhosts.toNat
  memoryUsed : ∀ memory, s.memoryUsed = some memory → memory.length = s.nhosts.toNat
  cpuArray : (s.cpuArrayCnt = 0 ∧ s.cpuArrayReps = none ∧ s.cpuArrayValue = none) ∨
    (s.cpuArrayCnt ≠ 0 ∧
      (∃ reps, s.cpuArrayReps = some reps ∧ s.cpuArrayCnt.toNat ≤ reps.length) ∧
      ∃ value, s.cpuArrayValue = some value ∧ s.cpuArrayCnt.toNat ≤ value.length)

/-- The structure without its node bitmap, and with arrays of runs that end with
the last run in use. -/
def Resources.carried (s : Resources) (runs : Nat) : Resources :=
  { s with
    nodeBitmap := none
    cpuArrayReps := s.cpuArrayReps.map (·.take s.cpuArrayCnt.toNat)
    cpuArrayValue := s.cpuArrayValue.map (·.take s.cpuArrayCnt.toNat)
    socketsPerNode := s.socketsPerNode.map (·.take runs)
    coresPerSocket := s.coresPerSocket.map (·.take runs)
    sockCoreRepCount := s.sockCoreRepCount.map (·.take runs) }

/-- The first `runs` entries of the arrays of runs are in use: they stand for all
nodes, and the entries after them are zero. -/
structure Resources.UsedUpTo (s : Resources) (runs : Nat) : Prop where
  sockets : ∃ used : List UInt16, used.length = runs ∧
    s.socketsPerNode = some (used ++ List.replicate (s.nhosts.toNat - runs) 0)
  cores : ∃ used : List UInt16, used.length = runs ∧
    s.coresPerSocket = some (used ++ List.replicate (s.nhosts.toNat - runs) 0)
  reps : ∃ used : List UInt32, used.length = runs ∧
    s.sockCoreRepCount = some (used ++ List.replicate (s.nhosts.toNat - runs) 0) ∧
    (used.map UInt32.toNat).sum = s.nhosts.toNat

theorem packCpuArray_decodes {s : Resources} (h : s.Filled) :
    ∃ items, packCpuArray s = some items ∧
      Decodes unpackCpuArray items (s.cpuArrayCnt, s.cpuArrayReps.map (·.take s.cpuArrayCnt.toNat),
        s.cpuArrayValue.map (·.take s.cpuArrayCnt.toNat)) := by
  obtain ⟨hcnt, hreps, hvalue⟩ | ⟨hcnt, ⟨reps, hreps, hlen⟩, value, hvalue, hlen'⟩ := h.cpuArray
  · refine ⟨_, if_neg fun hset => hset.1 hcnt, ?_⟩
    rw [hcnt, hreps, hvalue]
    exact Decodes.u32 (Decodes.pure _)
  · refine ⟨.u32 s.cpuArrayCnt :: .u32Array (reps.take s.cpuArrayCnt.toNat) ::
      pack16Array (value.take s.cpuArrayCnt.toNat), ?_, ?_⟩
    · rw [packCpuArray, if_pos ⟨hcnt, by rw [hreps]; rfl, by rw [hvalue]; rfl⟩, hreps, hvalue,
        firstOf, firstOf, Option.bind_some, Option.bind_some, if_pos hlen, if_pos hlen']
      rfl
    · rw [hreps, hvalue]
      have hlt := s.cpuArrayCnt.toNat_lt
      have htake : (reps.take s.cpuArrayCnt.toNat).length = s.cpuArrayCnt.toNat := by
        rw [List.length_take, Nat.min_eq_left hlen]
      have htake' : (value.take s.cpuArrayCnt.toNat).length = s.cpuArrayCnt.toNat := by
        rw [List.length_take, Nat.min_eq_left hlen']
      refine Decodes.u32 ?_
      rw [if_pos hcnt]
      refine decodes_cons (unpack32Array_decodes _) (expect_decodes (by simpa using hlen) ?_)
      have hvalues : Decodes unpack16Array (pack16Array (value.take s.cpuArrayCnt.toNat)) _ :=
        unpack16Array_decodes (by omega)
      exact decodes_last hvalues (expect_decodes (by simpa using hlen') (Decodes.pure _))

/-- The structure with the arrays of some runs and with fresh core bitmaps. -/
def Resources.built (s : Resources) (runs : List NodeRun) (coreCnt : Nat) : Resources :=
  { s with
    socketsPerNode := some (padded s.nhosts.toNat (runs.map NodeRun.sockets) 0)
    coresPerSocket := some (padded s.nhosts.toNat (runs.map NodeRun.cores) 0)
    sockCoreRepCount := some (padded s.nhosts.toNat (runs.map NodeRun.reps) 0)
    coreBitmap := some (bitAlloc coreCnt)
    coreBitmapUsed := some (bitAlloc coreCnt) }

/-- What `build_select_job_res` leaves, in terms of the runs of the nodes. -/
theorem buildSelectJobRes_built {s s' : Resources} {nodes : List NodeRecord}
    {fastSchedule : UInt16} {nodeBitmap : Bitstr} (hbitmap : s.nodeBitmap = some nodeBitmap)
    (hcount : (bitsSet nodeBitmap).length = s.nhosts.toNat)
    (hbuild : buildSelectJobRes s nodes fastSchedule = some (0, s')) :
    ∃ runs : List NodeRun, ∃ coreCnt : Nat,
      ShapesOf nodes fastSchedule (bitsSet nodeBitmap) (shapesOf runs) ∧
      (∀ r ∈ runs, 0 < r.reps.toNat) ∧
      (coreCnt : Int) = int32 (coresOf (shapesOf runs)) ∧ coreCnt ≤ maxLoop ∧
      s' = s.built runs coreCnt := by
  rw [buildSelectJobRes, hbitmap] at hbuild
  obtain ⟨b, hrun, hrest⟩ := Option.bind_eq_some_iff.mp hbuild
  obtain ⟨shapes, runs, hshapes, h⟩ := (built_start s.nhosts.toNat).run (by simp [hcount])
    s.nhosts.toNat_lt hrun
  rw [List.nil_append] at h
  split at hrest
  · cases hrest
  · rename_i hrange
    rw [not_or, not_lt, not_lt] at hrange
    refine ⟨runs, b.coreCnt.toNat, by rw [h.stand]; exact hshapes, h.pos, ?_, by omega, ?_⟩
    · rw [Int.toNat_of_nonneg hrange.1, h.stand]
      exact h.coreCnt
    · rw [Resources.built, ← h.sockets, ← h.cores, ← h.reps, hbitmap]
      exact (Prod.mk.inj (Option.some.inj hrest)).2.symm

theorem firstOf_of_length {α : Type} {n : Nat} {valp : Option (List α)} {vs : List α}
    (hset : valp = some vs) (hlen : vs.length = n) : firstOf n valp = some vs := by
  rw [hset, firstOf, Option.bind_some, if_pos (Nat.le_of_eq hlen.symm), List.take_of_length_le]
  exact Nat.le_of_eq hlen

theorem firstIfSet_of_length {α : Type} {n : Nat} {valp : Option (List α)}
    (hlen : ∀ vs, valp = some vs → vs.length = n) : firstIfSet n valp = some (valp.getD []) := by
  cases valp with
  | none => rfl
  | some vs => exact (if_pos rfl).trans (firstOf_of_length rfl (hlen vs rfl))

theorem firstOf_padded {α : Type} {n : Nat} {runs : List NodeRun} (f : NodeRun → α) (zero : α)
    (hle : runs.length ≤ n) :
    firstOf runs.length (some (padded n (runs.map f) zero)) = some (runs.map f) := by
  have hlen : (runs.map f).length = runs.length := List.length_map _
  rw [firstOf, Option.bind_some, length_padded (by omega), if_pos hle, ← hlen, take_padded]

/-- The packed items of a structure that was built, and what is unpacked from them. -/
theorem packSelectJobRes_built {s : Resources} {runs : List NodeRun} {coreCnt : Nat}
    (hs : s.Filled) (hstand : (shapesOf runs).length = s.nhosts.toNat)
    (hpos : ∀ r ∈ runs, 0 < r.reps.toNat)
    (hcnt : (coreCnt : Int) = int32 (coresOf (shapesOf runs))) (hmax : coreCnt ≤ maxLoop)
    (hnoVal : s.nhosts ≠ noVal) :
    ∃ items, packSelectJobRes (some (s.built runs coreCnt)) = some items ∧
      Decodes unpackSelectJobRes items (some ((s.built runs coreCnt).carried runs.length)) := by
  have hlt := s.nhosts.toNat_lt
  have hnhosts := hs.nhosts
  have hle := length_le_shapesOf hpos
  rw [hstand] at hle
  have hne : runs ≠ [] := by
    rintro rfl
    rw [shapesOf_nil, List.length_nil] at hstand
    omega
  obtain ⟨cpuArray, hcpuArray, hreadCpu⟩ := packCpuArray_decodes hs
  obtain ⟨cpus, hcpus, hcpusLen⟩ := hs.cpus
  -- the loop finds all runs, and the count of cores it makes up
  have hloop : packLoop (padded s.nhosts.toNat (runs.map NodeRun.sockets) 0)
      (padded s.nhosts.toNat (runs.map NodeRun.cores) 0)
      (padded s.nhosts.toNat (runs.map NodeRun.reps) 0) s.nhosts.toNat s.nhosts.toNat 0 0 0 =
        some (runs.length - 1, coreCnt) := by
    have h := @packLoop_runs _ [] runs hstand hlt hpos hne s.nhosts.toNat 0 hle
    rw [List.nil_append, List.length_nil, Nat.zero_add, Nat.zero_add] at h
    have hsame : uint32 (coresOf (shapesOf runs) : Int) = coreCnt := by
      have hmaxLoop : maxLoop = 2147483616 := rfl
      unfold int32 at hcnt
      rw [Int.bmod_def] at hcnt
      unfold uint32
      split at hcnt <;> omega
    rw [hsame] at h
    exact h
  have hlast : runs.length - 1 + 1 = runs.length :=
    Nat.sub_add_cancel (List.length_pos_iff.mpr hne)
  have hcores : packCores coreCnt (some (bitAlloc coreCnt)) =
      some (.str (some (CString.ofBytes []))) := (if_pos rfl).trans (packBitFmt_bitAlloc hmax)
  refine ⟨[Item.u32 s.nhosts, Item.u32 s.nprocs, Item.u8 s.nodeReq] ++ cpuArray ++
    pack16Array cpus ++ pack16Array (s.cpusUsed.getD []) ++
    [Item.u32Array (s.memoryAllocated.getD []), Item.u32Array (s.memoryUsed.getD [])] ++
    pack16Array (runs.map NodeRun.sockets) ++ pack16Array (runs.map NodeRun.cores) ++
    [Item.u32Array (runs.map NodeRun.reps)] ++
    [Item.u32 (UInt32.ofNat coreCnt), Item.str (some (CString.ofBytes [])),
      Item.str (some (CString.ofBytes []))], ?_, ?_⟩
  · have hbuilt : packCpuArray (s.built runs coreCnt) = some cpuArray := hcpuArray
    rw [packSelectJobRes, hbuilt]
    simp only [Resources.built, firstOf_of_length hcpus hcpusLen,
      firstIfSet_of_length hs.cpusUsed, firstIfSet_of_length hs.memoryAllocated,
      firstIfSet_of_length hs.memoryUsed, Option.bind_eq_bind, Option.bind_some, hloop, hlast,
      firstOf_padded _ _ hle, hcores]
    exact if_neg (Nat.ne_of_gt hnhosts)
  · have hset : ∀ {α : Type} {valp : Option (List α)},
        (∀ vs, valp = some vs → vs.length = s.nhosts.toNat) → ∀ vs, valp = some vs → vs ≠ [] := by
      intro α valp hlen vs hvs hnil
      have hzero := hlen vs hvs
      rw [hnil, List.length_nil] at hzero
      omega
    simp only [List.append_assoc, List.cons_append, List.nil_append]
    refine Decodes.u32 ?_
    rw [if_neg hnoVal]
    refine Decodes.u32 (decodes_u8 (hreadCpu.append ?_))
    refine (unpack16Array_decodes (by omega)).append (expect_decodes (by simpa using hcpusLen) ?_)
    -- what was not set is packed as empty, and is read as not set
    have hused : (s.cpusUsed.getD []).length < 4294967296 := by
      cases hcpusUsed : s.cpusUsed with
      | none => exact Nat.zero_lt_succ _
      | some cpusUsed => exact (hs.cpusUsed cpusUsed hcpusUsed).symm ▸ hlt
    refine (unpackIfSet_decodes (unpack16Array_decodes hused) (hset hs.cpusUsed)).append ?_
    have hmemory := unpackIfSet_decodes (unpack32Array_decodes _) (hset hs.memoryAllocated)
    refine decodes_cons hmemory (expect_decodes ?_ ?_)
    · cases hset : s.memoryAllocated with
      | none => rfl
      | some memory => exact decide_eq_true (hs.memoryAllocated memory hset)
    have hmemoryUsed := unpackIfSet_decodes (unpack32Array_decodes _) (hset hs.memoryUsed)
    refine decodes_cons hmemoryUsed ?_
    refine (unpack16Array_decodes (by simp; omega)).append ?_
    refine (unpack16Array_decodes (by simp; omega)).append ?_
    refine decodes_cons (unpack32Array_decodes _) (Decodes.u32 ?_)
    refine decodes_cons (unpackCores_decodes hmax) ?_
    refine decodes_last (unpackCores_decodes hmax) ?_
    simp only [Resources.carried, Resources.built, Option.map_some, take_padded_map, hcpus]
    exact Decodes.pure _

theorem length_bitsSet_le (b : Bitstr) : (bitsSet b).length ≤ b.nbits := by
  have hle := List.length_filter_le (bitTest b) (List.range b.nbits)
  rwa [List.length_range] at hle

theorem built_usedUpTo {s : Resources} {runs : List NodeRun} {coreCnt : Nat}
    (hstand : (shapesOf runs).length = s.nhosts.toNat) :
    (s.built runs coreCnt).UsedUpTo runs.length := by
  have hlen : ∀ {α : Type} (f : NodeRun → α), (runs.map f).length = runs.length :=
    fun f => List.length_map f
  refine ⟨⟨runs.map NodeRun.sockets, hlen _, ?_⟩, ⟨runs.map NodeRun.cores, hlen _, ?_⟩,
    ⟨runs.map NodeRun.reps, hlen _, ?_, ?_⟩⟩
  · rw [← hlen NodeRun.sockets]
    rfl
  · rw [← hlen NodeRun.cores]
    rfl
  · rw [← hlen NodeRun.reps]
    rfl
  · rw [← length_shapesOf]
    exact hstand

/-- Three nodes, the second and the third of which are alike. -/
def threeNodes : List NodeRecord := [⟨2, 4, 2, 4⟩, ⟨1, 2, 1, 2⟩, ⟨1, 2, 1, 2⟩]

/-- A job on all of them, without memory limits. -/
def threeNodesJob : Resources where
  coreBitmap := none
  coreBitmapUsed := none
  cpuArrayCnt := 2
  cpuArrayValue := some [8, 2, 0]
  cpuArrayReps := some [1, 2, 0]
  cpus := some [8, 2, 2]
  cpusUsed := some [0, 0, 0]
  coresPerSocket := none
  memoryAllocated := none
  memoryUsed := none
  nhosts := 3
  nodeBitmap := some (bitNset (bitAlloc 3) 0 2)
  nodeReq := 0
  nprocs := 12
  sockCoreRepCount := none
  socketsPerNode := none

theorem threeNodesJob_filled : threeNodesJob.Filled where
  nodes := ⟨_, rfl, by decide, by decide⟩
  nhosts := by decide
  cpus := ⟨_, rfl, rfl⟩
  cpusUsed := by
    rintro _ ⟨⟩
    rfl
  memoryAllocated := nofun
  memoryUsed := nofun
  cpuArray := .inr ⟨by decide, ⟨_, rfl, by decide⟩, _, rfl, by decide⟩

/-- The job as it is built. -/
def threeNodesBuilt : Resources := { threeNodesJob with
  coreBitmap := some (bitAlloc 12)
  coreBitmapUsed := some (bitAlloc 12)
  coresPerSocket := some [4, 2, 0]
  sockCoreRepCount := some [1, 2, 0]
  socketsPerNode := some [2, 1, 0] }

/-- The job as it is packed. -/
def threeNodesItems : List Item :=
  [.u32 3, .u32 12, .u8 0, .u32 2, .u32Array [1, 2], .u32 2, .u16 8, .u16 2, .u32 3, .u16 8,
    .u16 2, .u16 2, .u32 3, .u16 0, .u16 0, .u16 0, .u32Array [], .u32Array [], .u32 2, .u16 2,
    .u16 1, .u32 2, .u16 4, .u16 2, .u32Array [1, 2], .u32 12, .str (some (CString.ofBytes [])),
    .str (some (CString.ofBytes []))]

theorem threeNodes_build :
    buildSelectJobRes threeNodesJob threeNodes 0 = some (0, threeNodesBuilt) := by decide +kernel

theorem threeNodes_pack : packSelectJobRes (some threeNodesBuilt) = some threeNodesItems := by
  decide +kernel

theorem threeNodes_granted : Granted 16384 0 (threeNodesItems.flatMap Item.chunks) := by
  decide +kernel

end Slurm.JobResources
