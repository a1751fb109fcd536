import SlurmLite.SelectJobResPack

/-!
# The core bitmap of a job

`get_select_job_res_offset` and the functions that read and set the bits of one
core or of one node. All of them walk over the runs of equal nodes to the run of
their node and count the bits in front of it.

* **The walk** (`walk_found`, `walk_past`): where it ends for a node of the job,
  and for any other.
* **Offsets** (`offset_of_shape`): sockets within nodes, cores within sockets.
* **Result** (`offsetsRight_iff`): the functions are right exactly when the arrays
  have an entry for each node, and not only for each run.
-/

namespace Slurm.JobResources

open Base.CLib Slurm.Bitstring

/-! ## The code -/

/-- An entry of an array; `none` is memory outside of it. -/
def entry {α : Type} (array : Option (List α)) (i : Nat) : Option α := array.bind fun vs => vs[i]?

/-- Where the loop over the runs ends: at a run or behind all of them, with what
is left of `node_id`, and with `bit_inx`. -/
structure Found where
  run : Option Nat
  nodeId : Nat
  bitInx : Int
deriving DecidableEq

/-- The loop over the runs that the functions share, from run `i` on. -/
def walk (s : Resources) : Nat → Nat → Nat → Int → Option Found
  | 0, _, nodeId, bitInx => some ⟨none, nodeId, bitInx⟩
  | turns + 1, i, nodeId, bitInx => do
    let reps ← entry s.sockCoreRepCount i
    if reps.toNat ≤ nodeId then do
      let sockets ← entry s.socketsPerNode i
      let cores ← entry s.coresPerSocket i
      let bits := (sockets.toNat * cores.toNat * reps.toNat : Nat)
      walk s turns (i + 1) (nodeId - reps.toNat) (int32 (bitInx + bits))
    else some ⟨some i, nodeId, bitInx⟩

/-- `get_select_job_res_offset`. -/
def getSelectJobResOffset (s : Resources) (nodeId : UInt32) (socketId coreId : UInt16) :
    Option Int := do
  let f ← walk s s.nhosts.toNat 0 nodeId.toNat 0
  let core ← s.coreBitmap
  match f.run with
  | none => some (if f.bitInx ≥ core.nbits then -1 else f.bitInx)
  | some i => do
    let sockets ← entry s.socketsPerNode i
    let cores ← entry s.coresPerSocket i
    if socketId ≥ sockets then some (-1)
    else if coreId ≥ cores then some (-1)
    else
      let bitInx := int32 (f.bitInx + (sockets.toNat * cores.toNat * f.nodeId : Nat))
      let bitInx := int32 (bitInx + (cores.toNat * socketId.toNat : Nat))
      let bitInx := int32 (bitInx + coreId.toNat)
      some (if bitInx ≥ core.nbits then -1 else bitInx)

/-- `get_select_job_res_bit`. -/
def getSelectJobResBit (s : Resources) (nodeId : UInt32) (socketId coreId : UInt16) :
    Option Int := do
  let bitInx ← getSelectJobResOffset s nodeId socketId coreId
  let core ← s.coreBitmap
  some (if bitInx < 0 then -1 else if bitTest core bitInx.toNat then 1 else 0)

/-- `set_select_job_res_bit`. -/
def setSelectJobResBit (s : Resources) (nodeId : UInt32) (socketId coreId : UInt16) :
    Option (Int × Resources) := do
  let bitInx ← getSelectJobResOffset s nodeId socketId coreId
  let core ← s.coreBitmap
  if bitInx < 0 then some (-1, s)
  else some (0, { s with coreBitmap := some (bitSet core bitInx.toNat) })

/-- The bits of a node, as `get_select_job_res_node` and `set_select_job_res_node`
find them: the first one and their number. -/
def nodeBits (s : Resources) (nodeId : UInt32) : Option (Int × Int) := do
  let f ← walk s s.nhosts.toNat 0 nodeId.toNat 0
  match f.run with
  | none => some (f.bitInx, 0)
  | some i => do
    let sockets ← entry s.socketsPerNode i
    let cores ← entry s.coresPerSocket i
    some (int32 (f.bitInx + (sockets.toNat * cores.toNat * f.nodeId : Nat)),
      int32 (sockets.toNat * cores.toNat : Nat))

/-- `get_select_job_res_node`. -/
def getSelectJobResNode (s : Resources) (nodeId : UInt32) : Option Int := do
  let (bitInx, coreCnt) ← nodeBits s nodeId
  let core ← s.coreBitmap
  if coreCnt < 1 then some 0
  else if bitInx + coreCnt > core.nbits then some 0
  else some (if (List.range coreCnt.toNat).any fun i => bitTest core (bitInx.toNat + i)
    then 1 else 0)

/-- `set_select_job_res_node`. -/
def setSelectJobResNode (s : Resources) (nodeId : UInt32) : Option (Int × Resources) := do
  let (bitInx, coreCnt) ← nodeBits s nodeId
  let core ← s.coreBitmap
  if coreCnt < 1 then some (-1, s)
  else if bitInx + coreCnt > core.nbits then some (-1, s)
  else
    let core := (List.range coreCnt.toNat).foldl (fun b i => bitSet b (bitInx.toNat + i)) core
    some (0, { s with coreBitmap := some core })

/-! ## What is described -/

/-- A structure whose arrays have `n` entries, the first ones for runs of nodes
that are all of the job's nodes, and whose bitmap has a bit for each core. Sizes
of bitmaps are `int`s, the number of nodes among them. -/
structure Described (s : Resources) (n : Nat) (runs : List NodeRun) (core : Bitstr) : Prop where
  sockets : s.socketsPerNode = some (padded n (runs.map NodeRun.sockets) 0)
  cores : s.coresPerSocket = some (padded n (runs.map NodeRun.cores) 0)
  reps : s.sockCoreRepCount = some (padded n (runs.map NodeRun.reps) 0)
  room : runs.length ≤ n
  pos : ∀ r ∈ runs, 0 < r.reps.toNat
  nodes : (shapesOf runs).length = s.nhosts.toNat
  count : s.nhosts.toNat < 2147483648
  bitmap : s.coreBitmap = some core
  size : core.nbits = coresOf (shapesOf runs)
  int : core.nbits < 2147483648

/-- A core of the job: its node, the socket in it and the core in that. -/
def ValidCore (runs : List NodeRun) (nodeId : UInt32) (socketId coreId : UInt16) : Prop :=
  ∃ shape, (shapesOf runs)[nodeId.toNat]? = some shape ∧ socketId < shape.1 ∧ coreId < shape.2

/-- What the functions on the core bitmap should do. -/
structure OffsetsRight (s : Resources) (runs : List NodeRun) (core : Bitstr) : Prop where
  outside : ∀ nodeId socketId coreId, ¬ ValidCore runs nodeId socketId coreId →
    getSelectJobResOffset s nodeId socketId coreId = some (-1)
  inside : ∀ nodeId socketId coreId, ValidCore runs nodeId socketId coreId →
    ∃ o : Nat, o < core.nbits ∧ getSelectJobResOffset s nodeId socketId coreId = some o
  injective : ∀ nodeId socketId coreId nodeId' socketId' coreId',
    ValidCore runs nodeId socketId coreId → ValidCore runs nodeId' socketId' coreId' →
    getSelectJobResOffset s nodeId socketId coreId =
      getSelectJobResOffset s nodeId' socketId' coreId' →
    nodeId = nodeId' ∧ socketId = socketId' ∧ coreId = coreId'
  surjective : ∀ o < core.nbits, ∃ nodeId socketId coreId,
    ValidCore runs nodeId socketId coreId ∧
      getSelectJobResOffset s nodeId socketId coreId = some (o : Int)
  getBit : ∀ nodeId socketId coreId,
    getSelectJobResBit s nodeId socketId coreId =
      (getSelectJobResOffset s nodeId socketId coreId).map fun o =>
        if o < 0 then -1 else if core.bit o.toNat then 1 else 0
  setBit : ∀ nodeId socketId coreId, ∃ rc core',
    setSelectJobResBit s nodeId socketId coreId =
      some (rc, { s with coreBitmap := some core' }) ∧
    (rc = 0 ∧ ValidCore runs nodeId socketId coreId ∨
      rc = -1 ∧ ¬ ValidCore runs nodeId socketId coreId) ∧
    core'.nbits = core.nbits ∧
    ∀ j : Nat, core'.bit j = true ↔ core.bit j = true ∨
      ValidCore runs nodeId socketId coreId ∧
        getSelectJobResOffset s nodeId socketId coreId = some (j : Int)
  getNode : ∀ nodeId, ∃ rc, getSelectJobResNode s nodeId = some rc ∧ (rc = 0 ∨ rc = 1) ∧
    (rc = 1 ↔ ∃ socketId coreId, ∃ o : Nat, ValidCore runs nodeId socketId coreId ∧
      getSelectJobResOffset s nodeId socketId coreId = some (o : Int) ∧ core.bit o = true)
  setNode : ∀ nodeId, ∃ rc core',
    setSelectJobResNode s nodeId = some (rc, { s with coreBitmap := some core' }) ∧
    (rc = 0 ∧ (∃ socketId coreId, ValidCore runs nodeId socketId coreId) ∨
      rc = -1 ∧ ¬ ∃ socketId coreId, ValidCore runs nodeId socketId coreId) ∧
    core'.nbits = core.nbits ∧
    ∀ j : Nat, core'.bit j = true ↔ core.bit j = true ∨ ∃ socketId coreId,
      ValidCore runs nodeId socketId coreId ∧
        getSelectJobResOffset s nodeId socketId coreId = some (j : Int)

/-! ## Cores of nodes -/

theorem coresOf_take_succ {shapes : List (UInt16 × UInt16)} {k : Nat} {shape : UInt16 × UInt16}
    (h : shapes[k]? = some shape) :
    coresOf (shapes.take (k + 1)) = coresOf (shapes.take k) + shape.2.toNat * shape.1.toNat := by
  rw [List.take_add_one, h, coresOf_append]
  simp [coresOf]

theorem coresOf_take_le (shapes : List (UInt16 × UInt16)) {j k : Nat} (h : j ≤ k) :
    coresOf (shapes.take j) ≤ coresOf (shapes.take k) := by
  obtain ⟨d, rfl⟩ := Nat.le.dest h
  rw [List.take_add, coresOf_append]
  exact Nat.le_add_right _ _

theorem coresOf_take_le_all (shapes : List (UInt16 × UInt16)) (k : Nat) :
    coresOf (shapes.take k) ≤ coresOf shapes := by
  have h := coresOf_take_le shapes (Nat.le_max_left k shapes.length)
  rwa [List.take_of_length_le (Nat.le_max_right k shapes.length)] at h

/-- Every core is one of some node. -/
theorem exists_node {shapes : List (UInt16 × UInt16)} {o : Nat} (h : o < coresOf shapes) :
    ∃ k shape, shapes[k]? = some shape ∧ coresOf (shapes.take k) ≤ o ∧
      o < coresOf (shapes.take k) + shape.2.toNat * shape.1.toNat := by
  induction shapes generalizing o with
  | nil => exact absurd h (Nat.not_lt_zero o)
  | cons shape shapes ih =>
    have hcons : coresOf (shape :: shapes) =
        shape.2.toNat * shape.1.toNat + coresOf shapes := by
      simp [coresOf]
    by_cases hfirst : o < shape.2.toNat * shape.1.toNat
    · refine ⟨0, shape, rfl, Nat.zero_le _, ?_⟩
      rw [List.take_zero]
      show o < 0 + _
      omega
    · obtain ⟨k, shape', hk, hle, hlt⟩ := ih (show o - shape.2.toNat * shape.1.toNat <
        coresOf shapes by omega)
      have htake : coresOf ((shape :: shapes).take (k + 1)) =
          shape.2.toNat * shape.1.toNat + coresOf (shapes.take k) := by
        simp [coresOf]
      refine ⟨k + 1, shape', hk, ?_, ?_⟩
      · rw [htake]
        omega
      · rw [htake]
        omega

/-! ## The walk -/

section

variable {s : Resources} {n : Nat} {runs : List NodeRun} {core : Bitstr}

theorem entry_padded {α : Type} {array : Option (List α)} {f : NodeRun → α} {zero : α}
    (h : array = some (padded n (runs.map f) zero)) {i : Nat} {r : NodeRun}
    (hi : runs[i]? = some r) : entry array i = some (f r) := by
  have hlt : i < runs.length := (List.getElem?_eq_some_iff.mp hi).1
  rw [h, entry, Option.bind_some, getElem?_padded (by rw [List.length_map]; exact hlt),
    List.getElem?_map, hi]
  rfl

/-- Behind the runs the entries are zero. -/
theorem entry_behind {α : Type} {array : Option (List α)} {f : NodeRun → α} {zero : α}
    (h : array = some (padded n (runs.map f) zero)) {i : Nat} (hlo : runs.length ≤ i)
    (hhi : i < n) : entry array i = some zero := by
  rw [h, entry, Option.bind_some, padded, List.getElem?_append_right (by simpa using hlo),
    List.length_map, List.getElem?_replicate]
  rw [if_pos (by omega)]

theorem entry_outside {α : Type} {array : Option (List α)} {f : NodeRun → α} {zero : α}
    (h : array = some (padded n (runs.map f) zero)) (hroom : runs.length ≤ n) {i : Nat}
    (hi : n ≤ i) : entry array i = none := by
  rw [h, entry, Option.bind_some, List.getElem?_eq_none]
  rw [length_padded (by rw [List.length_map]; exact hroom)]
  exact hi

theorem int32_of_nat {k : Nat} (h : k < 2147483648) : int32 k = k :=
  int32_of_range (by omega) (by omega)

/-- One run that is passed. -/
theorem walk_pass (h : Described s n runs core) {i turns nodeId base : Nat} {r : NodeRun}
    (hi : runs[i]? = some r) (hpass : r.reps.toNat ≤ nodeId)
    (hbase : base + r.reps.toNat * (r.cores.toNat * r.sockets.toNat) < 2147483648) :
    walk s (turns + 1) i nodeId base =
      walk s turns (i + 1) (nodeId - r.reps.toNat)
        (base + r.reps.toNat * (r.cores.toNat * r.sockets.toNat) : Nat) := by
  have hbits : (base : Int) + (r.sockets.toNat * r.cores.toNat * r.reps.toNat : Nat) =
      (base + r.reps.toNat * (r.cores.toNat * r.sockets.toNat) : Nat) := by
    rw [Nat.cast_add]
    congr 2
    ring
  rw [walk, entry_padded h.reps hi, Option.bind_eq_bind, Option.bind_some, if_pos hpass,
    entry_padded h.sockets hi, Option.bind_eq_bind, Option.bind_some, entry_padded h.cores hi,
    Option.bind_some]
  simp only [hbits]
  rw [int32_of_nat hbase]

/-- A node of the job is found in its run. -/
theorem walk_found (h : Described s n runs core) {done todo : List NodeRun}
    (hruns : runs = done ++ todo) {turns nodeId base : Nat} (hturns : todo.length ≤ turns)
    (hnode : nodeId < (shapesOf todo).length)
    (hbase : base + coresOf (shapesOf todo) < 2147483648) :
    ∃ i left front r, walk s turns done.length nodeId base = some ⟨some i, left, (front : Nat)⟩ ∧
      runs[i]? = some r ∧ (shapesOf todo)[nodeId]? = some r.shape ∧
      front + r.sockets.toNat * r.cores.toNat * left =
        base + coresOf ((shapesOf todo).take nodeId) := by
  induction todo generalizing done turns nodeId base with
  | nil => exact absurd hnode (Nat.not_lt_zero nodeId)
  | cons r todo ih =>
    obtain ⟨turns, rfl⟩ : ∃ k, turns = k + 1 := ⟨turns - 1, by
      rw [List.length_cons] at hturns
      omega⟩
    have hi : runs[done.length]? = some r := by
      rw [hruns, List.getElem?_append_right (Nat.le_refl _), Nat.sub_self]
      rfl
    rw [shapesOf_cons] at hnode hbase ⊢
    rw [List.length_append, List.length_replicate] at hnode
    rw [coresOf_append, coresOf_replicate] at hbase
    have hshape : r.shape.2.toNat * r.shape.1.toNat = r.cores.toNat * r.sockets.toNat := rfl
    rw [hshape] at hbase
    by_cases hpass : r.reps.toNat ≤ nodeId
    · rw [walk_pass h hi hpass (by omega)]
      rw [List.length_cons] at hturns
      obtain ⟨i, left, front, r', hwalk, hr', hget, hfront⟩ :=
        @ih (done ++ [r]) (by rw [hruns]; simp) turns (nodeId - r.reps.toNat)
          (base + r.reps.toNat * (r.cores.toNat * r.sockets.toNat)) (by omega) (by omega)
          (by omega)
      rw [List.length_append, List.length_singleton] at hwalk
      refine ⟨i, left, front, r', hwalk, hr', ?_, ?_⟩
      · rw [List.getElem?_append_right (by rw [List.length_replicate]; exact hpass),
          List.length_replicate]
        exact hget
      · have htake : (List.replicate r.reps.toNat r.shape).take nodeId =
            List.replicate r.reps.toNat r.shape := by
          apply List.take_of_length_le
          rw [List.length_replicate]
          exact hpass
        rw [hfront, List.take_append, List.length_replicate, htake, coresOf_append,
          coresOf_replicate, hshape]
        omega
    · refine ⟨done.length, nodeId, base, r, ?_, hi, ?_, ?_⟩
      · rw [walk, entry_padded h.reps hi, Option.bind_eq_bind, Option.bind_some, if_neg hpass]
      · rw [List.getElem?_append_left (by rw [List.length_replicate]; omega),
          List.getElem?_replicate, if_pos (by omega)]
      · rw [List.take_append_of_le_length (by rw [List.length_replicate]; omega),
          List.take_replicate, coresOf_replicate, Nat.min_eq_left (by omega), hshape]
        congr 1
        ring

/-- For a node number that is too large all runs are passed. -/
theorem walk_runs (h : Described s n runs core) {done todo : List NodeRun}
    (hruns : runs = done ++ todo) {more nodeId base : Nat}
    (hnode : (shapesOf todo).length ≤ nodeId)
    (hbase : base + coresOf (shapesOf todo) < 2147483648) :
    walk s (todo.length + more) done.length nodeId base =
      walk s more runs.length (nodeId - (shapesOf todo).length)
        (base + coresOf (shapesOf todo) : Nat) := by
  induction todo generalizing done nodeId base with
  | nil =>
    rw [List.append_nil] at hruns
    rw [hruns, List.length_nil, Nat.zero_add]
    rfl
  | cons r todo ih =>
    have hi : runs[done.length]? = some r := by
      rw [hruns, List.getElem?_append_right (Nat.le_refl _), Nat.sub_self]
      rfl
    have hshape : r.shape.2.toNat * r.shape.1.toNat = r.cores.toNat * r.sockets.toNat := rfl
    rw [shapesOf_cons, coresOf_append, coresOf_replicate, hshape] at hbase ⊢
    rw [shapesOf_cons, List.length_append, List.length_replicate] at hnode
    have hturns : (r :: todo).length + more = (todo.length + more) + 1 := by
      rw [List.length_cons]
      omega
    rw [hturns, walk_pass h hi (by omega) (by omega)]
    have hrec := @ih (done ++ [r]) (by rw [hruns]; simp) (nodeId - r.reps.toNat)
      (base + r.reps.toNat * (r.cores.toNat * r.sockets.toNat)) (by omega) (by omega)
    rw [List.length_append, List.length_singleton] at hrec
    rw [hrec, List.length_append, List.length_replicate, Nat.sub_sub, Nat.add_assoc]

/-- Behind the runs the loop goes on to the number of nodes, or out of the arrays. -/
theorem walk_behind (h : Described s n runs core) {turns i nodeId base : Nat}
    (hi : runs.length ≤ i) (hn : i ≤ n) (hbase : base < 2147483648) :
    walk s turns i nodeId base =
      if i + turns ≤ n then some ⟨none, nodeId, base⟩ else none := by
  induction turns generalizing i with
  | zero =>
    rw [if_pos (by omega)]
    rfl
  | succ turns ih =>
    rw [walk]
    by_cases hlt : i < n
    · have hzero : (0 : UInt32).toNat ≤ nodeId := Nat.zero_le nodeId
      rw [entry_behind h.reps hi hlt, Option.bind_eq_bind, Option.bind_some, if_pos hzero,
        entry_behind h.sockets hi hlt, Option.bind_eq_bind, Option.bind_some,
        entry_behind h.cores hi hlt, Option.bind_some]
      show walk s turns (i + 1) nodeId (int32 ((base : Int) + (0 : Nat))) = _
      have hadd : (base : Int) + (0 : Nat) = (base : Nat) := by omega
      rw [hadd, int32_of_nat hbase, ih (by omega) (by omega)]
      have hturns : i + 1 + turns = i + (turns + 1) := by omega
      rw [hturns]
    · rw [entry_outside h.reps h.room (by omega), if_neg (by omega)]
      rfl

theorem length_le_nhosts (h : Described s n runs core) : runs.length ≤ s.nhosts.toNat := by
  rw [← h.nodes]
  exact length_le_shapesOf h.pos

/-- Where the walk ends for a number that is no node's. -/
theorem walk_past (h : Described s n runs core) {nodeId : Nat}
    (hnode : s.nhosts.toNat ≤ nodeId) :
    walk s s.nhosts.toNat 0 nodeId 0 =
      if s.nhosts.toNat ≤ n then some ⟨none, nodeId - s.nhosts.toNat, core.nbits⟩ else none := by
  have hlen := length_le_nhosts h
  have hint := h.int
  rw [h.size] at hint
  obtain ⟨more, hmore⟩ := Nat.le.dest hlen
  have hruns := @walk_runs s n runs core h [] runs rfl more nodeId 0
    (by rw [h.nodes]; exact hnode) (by omega)
  rw [List.length_nil, hmore] at hruns
  rw [h.nodes, Nat.zero_add] at hruns
  show walk s s.nhosts.toNat 0 nodeId (0 : Nat) = _
  rw [hruns, walk_behind h (Nat.le_refl _) h.room hint, hmore, h.size]

/-- Where it ends for a node. -/
theorem walk_node (h : Described s n runs core) {nodeId : Nat} {shape : UInt16 × UInt16}
    (hshape : (shapesOf runs)[nodeId]? = some shape) :
    ∃ i left front, walk s s.nhosts.toNat 0 nodeId 0 = some ⟨some i, left, (front : Nat)⟩ ∧
      entry s.socketsPerNode i = some shape.1 ∧ entry s.coresPerSocket i = some shape.2 ∧
      front + shape.1.toNat * shape.2.toNat * left = coresOf ((shapesOf runs).take nodeId) := by
  have hint := h.int
  rw [h.size] at hint
  obtain ⟨i, left, front, r, hwalk, hr, hget, hfront⟩ :=
    @walk_found s n runs core h [] runs rfl s.nhosts.toNat nodeId 0 (length_le_nhosts h)
      (List.getElem?_eq_some_iff.mp hshape).1 (by omega)
  rw [hshape] at hget
  cases hget
  rw [Nat.zero_add] at hfront
  exact ⟨i, left, front, hwalk, entry_padded h.sockets hr, entry_padded h.cores hr, hfront⟩

/-! ## Offsets -/

/-- The cores of a node end within the bitmap. -/
theorem node_le (h : Described s n runs core) {nodeId : Nat} {shape : UInt16 × UInt16}
    (hshape : (shapesOf runs)[nodeId]? = some shape) :
    coresOf ((shapesOf runs).take nodeId) + shape.2.toNat * shape.1.toNat ≤ core.nbits := by
  rw [h.size, ← coresOf_take_succ hshape]
  exact coresOf_take_le_all _ _

/-- A place in a socket is within its node. -/
theorem place_lt {shape : UInt16 × UInt16} {socketId coreId : UInt16}
    (hsocket : socketId < shape.1) (hcore : coreId < shape.2) :
    shape.2.toNat * socketId.toNat + coreId.toNat < shape.2.toNat * shape.1.toNat := by
  have h1 : socketId.toNat + 1 ≤ shape.1.toNat := UInt16.lt_iff_toNat_lt.mp hsocket
  have h2 : coreId.toNat < shape.2.toNat := UInt16.lt_iff_toNat_lt.mp hcore
  calc shape.2.toNat * socketId.toNat + coreId.toNat
      < shape.2.toNat * socketId.toNat + shape.2.toNat := by omega
    _ = shape.2.toNat * (socketId.toNat + 1) := by ring
    _ ≤ shape.2.toNat * shape.1.toNat := Nat.mul_le_mul_left _ h1

/-- The offset of a core: the cores of the nodes before its own, of the sockets
before its own, and of the cores before it. -/
theorem offset_of_shape (h : Described s n runs core) {nodeId : UInt32}
    {socketId coreId : UInt16} {shape : UInt16 × UInt16}
    (hshape : (shapesOf runs)[nodeId.toNat]? = some shape) :
    getSelectJobResOffset s nodeId socketId coreId =
      some (if socketId < shape.1 ∧ coreId < shape.2 then
        ((coresOf ((shapesOf runs).take nodeId.toNat) +
          (shape.2.toNat * socketId.toNat + coreId.toNat) : Nat) : Int) else -1) := by
  obtain ⟨i, left, front, hwalk, hsockets, hcores, hfront⟩ := walk_node h hshape
  simp only [getSelectJobResOffset, hwalk, h.bitmap, hsockets, hcores, Option.bind_eq_bind,
    Option.bind_some]
  by_cases hsocket : socketId < shape.1
  · by_cases hcore : coreId < shape.2
    · have hplace := place_lt hsocket hcore
      have hnode := node_le h hshape
      have hint := h.int
      have hboth : socketId < shape.1 ∧ coreId < shape.2 := And.intro hsocket hcore
      rw [if_neg (UInt16.not_le.mpr hsocket), if_neg (UInt16.not_le.mpr hcore), if_pos hboth]
      have h1 : (front : Int) + (shape.1.toNat * shape.2.toNat * left : Nat) =
          (coresOf ((shapesOf runs).take nodeId.toNat) : Nat) := by
        rw [← hfront, Nat.cast_add]
      rw [h1, int32_of_nat (by omega), ← Nat.cast_add, int32_of_nat (by omega), ← Nat.cast_add,
        int32_of_nat (by omega), if_neg (by omega), Nat.add_assoc]
    · rw [if_neg (UInt16.not_le.mpr hsocket), if_pos (UInt16.not_lt.mp hcore),
        if_neg fun hboth => hcore hboth.2]
  · rw [if_pos (UInt16.not_lt.mp hsocket), if_neg fun hboth => hsocket hboth.1]

/-- For a number that is no node's the loop leaves arrays that are too short. -/
theorem offset_past (h : Described s n runs core) {nodeId : UInt32}
    {socketId coreId : UInt16} (hnode : s.nhosts.toNat ≤ nodeId.toNat) :
    getSelectJobResOffset s nodeId socketId coreId =
      if s.nhosts.toNat ≤ n then some (-1) else none := by
  rw [getSelectJobResOffset, walk_past h hnode]
  by_cases hn : s.nhosts.toNat ≤ n
  · rw [if_pos hn, if_pos hn]
    simp [h.bitmap]
  · rw [if_neg hn, if_neg hn]
    rfl

/-- A number is a node's or too large. -/
theorem node_cases (h : Described s n runs core) (nodeId : UInt32) :
    (∃ shape, (shapesOf runs)[nodeId.toNat]? = some shape) ∨
      (s.nhosts.toNat ≤ nodeId.toNat ∧
        ∀ socketId coreId, ¬ ValidCore runs nodeId socketId coreId) := by
  cases hshape : (shapesOf runs)[nodeId.toNat]? with
  | some shape => exact Or.inl ⟨shape, rfl⟩
  | none =>
    right
    have hlen := List.getElem?_eq_none_iff.mp hshape
    rw [h.nodes] at hlen
    refine ⟨hlen, ?_⟩
    rintro socketId coreId ⟨shape, hsome, -⟩
    rw [hshape] at hsome
    cases hsome

theorem validCore_iff {nodeId : UInt32} {socketId coreId : UInt16} {shape : UInt16 × UInt16}
    (hshape : (shapesOf runs)[nodeId.toNat]? = some shape) :
    ValidCore runs nodeId socketId coreId ↔ socketId < shape.1 ∧ coreId < shape.2 := by
  constructor
  · rintro ⟨shape', hshape', hlt⟩
    rw [hshape] at hshape'
    cases hshape'
    exact hlt
  · intro hlt
    exact ⟨shape, hshape, hlt⟩

/-- The offset of a core of the job. -/
theorem offset_of_valid (h : Described s n runs core) {nodeId : UInt32}
    {socketId coreId : UInt16} {shape : UInt16 × UInt16}
    (hshape : (shapesOf runs)[nodeId.toNat]? = some shape)
    (hvalid : ValidCore runs nodeId socketId coreId) :
    getSelectJobResOffset s nodeId socketId coreId =
      some ((coresOf ((shapesOf runs).take nodeId.toNat) +
        (shape.2.toNat * socketId.toNat + coreId.toNat) : Nat) : Int) := by
  rw [offset_of_shape h hshape, if_pos ((validCore_iff hshape).mp hvalid)]

/-- The offsets of a node's cores are the bits of the node. -/
theorem exists_core_iff (h : Described s n runs core) {nodeId : UInt32}
    {shape : UInt16 × UInt16} (hshape : (shapesOf runs)[nodeId.toNat]? = some shape) (o : Nat) :
    (∃ socketId coreId, ValidCore runs nodeId socketId coreId ∧
        getSelectJobResOffset s nodeId socketId coreId = some (o : Int)) ↔
      coresOf ((shapesOf runs).take nodeId.toNat) ≤ o ∧
        o < coresOf ((shapesOf runs).take nodeId.toNat) + shape.2.toNat * shape.1.toNat := by
  set start := coresOf ((shapesOf runs).take nodeId.toNat) with hstart
  constructor
  · rintro ⟨socketId, coreId, hvalid, hoffset⟩
    rw [offset_of_valid h hshape hvalid, Option.some.injEq, Nat.cast_inj] at hoffset
    have hlt := (validCore_iff hshape).mp hvalid
    have hplace := place_lt hlt.1 hlt.2
    omega
  · rintro ⟨hle, hlt⟩
    -- the socket and the core are the quotient and the rest by the cores of a socket
    have hcores : 0 < shape.2.toNat := by
      by_contra hzero
      rw [Nat.eq_zero_of_not_pos hzero, Nat.zero_mul] at hlt
      omega
    have hdiv : (o - start) / shape.2.toNat < shape.1.toNat := by
      rw [Nat.div_lt_iff_lt_mul hcores, Nat.mul_comm]
      omega
    have hmod : (o - start) % shape.2.toNat < shape.2.toNat := Nat.mod_lt _ hcores
    have h1 := shape.1.toNat_lt
    have h2 := shape.2.toNat_lt
    have hsocket : (UInt16.ofNat ((o - start) / shape.2.toNat)).toNat =
        (o - start) / shape.2.toNat := UInt16.toNat_ofNat_of_lt' (Nat.lt_trans hdiv h1)
    have hcore : (UInt16.ofNat ((o - start) % shape.2.toNat)).toNat =
        (o - start) % shape.2.toNat := UInt16.toNat_ofNat_of_lt' (Nat.lt_trans hmod h2)
    have hvalid : ValidCore runs nodeId (UInt16.ofNat ((o - start) / shape.2.toNat))
        (UInt16.ofNat ((o - start) % shape.2.toNat)) := by
      rw [validCore_iff hshape, UInt16.lt_iff_toNat_lt, UInt16.lt_iff_toNat_lt, hsocket, hcore]
      exact ⟨hdiv, hmod⟩
    refine ⟨_, _, hvalid, ?_⟩
    rw [offset_of_valid h hshape hvalid, hsocket, hcore, ← hstart, Nat.div_add_mod]
    congr 2
    omega

/-! ## Bits -/

theorem bit_bitSet_iff {b : Bitstr} {i : Nat} (hi : i < b.nbits) (j : Nat) :
    (bitSet b i).bit j = true ↔ b.bit j = true ∨ i = j := by
  have hw := lt_words b hi
  rw [bitSet, bit_bitPut]
  by_cases hj : j = i
  · subst hj
    simp [hw]
  · simp [hj, Ne.symm hj]

theorem nbits_setRange (b : Bitstr) (start len : Nat) :
    ((List.range len).foldl (fun b i => bitSet b (start + i)) b).nbits = b.nbits := by
  induction len with
  | zero => rfl
  | succ len ih =>
    rw [List.range_succ, List.foldl_append]
    exact ih

/-- The bits of a node, set one after the other. -/
theorem bit_setRange {b : Bitstr} {start len : Nat} (hlen : start + len ≤ b.nbits) (j : Nat) :
    ((List.range len).foldl (fun b i => bitSet b (start + i)) b).bit j = true ↔
      b.bit j = true ∨ (start ≤ j ∧ j < start + len) := by
  induction len with
  | zero => simp
  | succ len ih =>
    have hnbits : ((List.range len).foldl (fun b i => bitSet b (start + i)) b).nbits =
        b.nbits := nbits_setRange b start len
    rw [List.range_succ, List.foldl_append]
    show (bitSet _ (start + len)).bit j = true ↔ _
    rw [bit_bitSet_iff (by rw [hnbits]; omega), ih (by omega), or_assoc]
    apply or_congr_right
    omega

/-! ## The functions -/

/-- The bits of a node. -/
theorem nodeBits_of_shape (h : Described s n runs core) {nodeId : UInt32}
    {shape : UInt16 × UInt16} (hshape : (shapesOf runs)[nodeId.toNat]? = some shape) :
    nodeBits s nodeId = some (((coresOf ((shapesOf runs).take nodeId.toNat) : Nat) : Int),
      ((shape.2.toNat * shape.1.toNat : Nat) : Int)) := by
  obtain ⟨i, left, front, hwalk, hsockets, hcores, hfront⟩ := walk_node h hshape
  have hnode := node_le h hshape
  have hint := h.int
  have hadd : (front : Int) + (shape.1.toNat * shape.2.toNat * left : Nat) =
      (coresOf ((shapesOf runs).take nodeId.toNat) : Nat) := by
    rw [← hfront, Nat.cast_add]
  simp only [nodeBits, hwalk, hsockets, hcores, Option.bind_eq_bind, Option.bind_some, hadd]
  rw [int32_of_nat (by omega), Nat.mul_comm shape.1.toNat, int32_of_nat (by omega)]

theorem nodeBits_past (h : Described s n runs core) (hn : s.nhosts.toNat ≤ n) {nodeId : UInt32}
    (hnode : s.nhosts.toNat ≤ nodeId.toNat) :
    nodeBits s nodeId = some ((core.nbits : Int), 0) := by
  simp only [nodeBits, walk_past h hnode, if_pos hn, Option.bind_eq_bind, Option.bind_some]

/-- What the node functions find, with what belongs to the node. -/
theorem nodeBits_spec (h : Described s n runs core) (hn : s.nhosts.toNat ≤ n) (nodeId : UInt32) :
    ∃ start len : Nat, nodeBits s nodeId = some ((start : Int), (len : Int)) ∧
      start + len ≤ core.nbits ∧
      ∀ o : Nat, (∃ socketId coreId, ValidCore runs nodeId socketId coreId ∧
        getSelectJobResOffset s nodeId socketId coreId = some (o : Int)) ↔
          start ≤ o ∧ o < start + len := by
  rcases node_cases h nodeId with ⟨shape, hshape⟩ | ⟨hpast, hno⟩
  · exact ⟨_, _, nodeBits_of_shape h hshape, node_le h hshape, exists_core_iff h hshape⟩
  · refine ⟨core.nbits, 0, nodeBits_past h hn hpast, Nat.le_refl _, ?_⟩
    intro o
    apply iff_of_false
    · rintro ⟨socketId, coreId, hvalid, -⟩
      exact hno socketId coreId hvalid
    · omega

/-- The cores of the job have the offsets of the bitmap, one each. -/
theorem offset_spec (h : Described s n runs core) (hn : s.nhosts.toNat ≤ n) (nodeId : UInt32)
    (socketId coreId : UInt16) :
    (ValidCore runs nodeId socketId coreId ∧ ∃ o : Nat, o < core.nbits ∧
        getSelectJobResOffset s nodeId socketId coreId = some (o : Int)) ∨
      (¬ ValidCore runs nodeId socketId coreId ∧
        getSelectJobResOffset s nodeId socketId coreId = some (-1)) := by
  rcases node_cases h nodeId with ⟨shape, hshape⟩ | ⟨hpast, hno⟩
  · by_cases hvalid : ValidCore runs nodeId socketId coreId
    · left
      have hlt := (validCore_iff hshape).mp hvalid
      have hplace := place_lt hlt.1 hlt.2
      have hnode := node_le h hshape
      exact ⟨hvalid, _, by omega, offset_of_valid h hshape hvalid⟩
    · right
      rw [offset_of_shape h hshape, if_neg fun hlt => hvalid ((validCore_iff hshape).mpr hlt)]
      exact ⟨hvalid, rfl⟩
  · right
    rw [offset_past h hpast, if_pos hn]
    exact ⟨hno socketId coreId, rfl⟩

/-- Cores with the same offset are the same. -/
theorem offset_injective (h : Described s n runs core) {nodeId nodeId' : UInt32}
    {socketId coreId socketId' coreId' : UInt16}
    (hvalid : ValidCore runs nodeId socketId coreId)
    (hvalid' : ValidCore runs nodeId' socketId' coreId')
    (heq : getSelectJobResOffset s nodeId socketId coreId =
      getSelectJobResOffset s nodeId' socketId' coreId') :
    nodeId = nodeId' ∧ socketId = socketId' ∧ coreId = coreId' := by
  obtain ⟨shape, hshape, hsocket, hcore⟩ := id hvalid
  obtain ⟨shape', hshape', hsocket', hcore'⟩ := id hvalid'
  have hplace := place_lt hsocket hcore
  have hplace' := place_lt hsocket' hcore'
  rw [offset_of_valid h hshape hvalid, offset_of_valid h hshape' hvalid', Option.some.injEq,
    Nat.cast_inj] at heq
  -- the cores of one node end before those of the next one begin
  have hnode : nodeId.toNat = nodeId'.toNat := by
    rcases Nat.lt_trichotomy nodeId.toNat nodeId'.toNat with hlt | heq' | hlt
    · have hle := coresOf_take_le (shapesOf runs) (show nodeId.toNat + 1 ≤ nodeId'.toNat from hlt)
      rw [coresOf_take_succ hshape] at hle
      omega
    · exact heq'
    · have hle := coresOf_take_le (shapesOf runs) (show nodeId'.toNat + 1 ≤ nodeId.toNat from hlt)
      rw [coresOf_take_succ hshape'] at hle
      omega
  rw [hnode, hshape'] at hshape
  cases hshape
  rw [hnode, Nat.add_left_cancel_iff] at heq
  have hcores : coreId.toNat < shape.2.toNat := UInt16.lt_iff_toNat_lt.mp hcore
  have hcores' : coreId'.toNat < shape.2.toNat := UInt16.lt_iff_toNat_lt.mp hcore'
  have hdiv : ∀ a b : Nat, b < shape.2.toNat → (shape.2.toNat * a + b) / shape.2.toNat = a := by
    intro a b hb
    rw [Nat.mul_add_div (by omega), Nat.div_eq_of_lt hb, Nat.add_zero]
  have hsockets : socketId.toNat = socketId'.toNat := by
    rw [← hdiv socketId.toNat coreId.toNat hcores, heq, hdiv _ _ hcores']
  rw [hsockets, Nat.add_left_cancel_iff] at heq
  exact ⟨UInt32.toNat_inj.mp hnode, UInt16.toNat_inj.mp hsockets, UInt16.toNat_inj.mp heq⟩

theorem offset_surjective (h : Described s n runs core) {o : Nat} (ho : o < core.nbits) :
    ∃ nodeId socketId coreId, ValidCore runs nodeId socketId coreId ∧
      getSelectJobResOffset s nodeId socketId coreId = some (o : Int) := by
  rw [h.size] at ho
  obtain ⟨k, shape, hshape, hle, hlt⟩ := exists_node ho
  have hk := (List.getElem?_eq_some_iff.mp hshape).1
  rw [h.nodes] at hk
  have hnode : (UInt32.ofNat k).toNat = k :=
    UInt32.toNat_ofNat_of_lt' (Nat.lt_trans hk s.nhosts.toNat_lt)
  rw [← hnode] at hshape hle hlt
  obtain ⟨socketId, coreId, hcore⟩ := (exists_core_iff h hshape o).mpr ⟨hle, hlt⟩
  exact ⟨UInt32.ofNat k, socketId, coreId, hcore⟩

theorem setBit_spec (h : Described s n runs core) (hn : s.nhosts.toNat ≤ n) (nodeId : UInt32)
    (socketId coreId : UInt16) : ∃ rc core',
    setSelectJobResBit s nodeId socketId coreId =
      some (rc, { s with coreBitmap := some core' }) ∧
    (rc = 0 ∧ ValidCore runs nodeId socketId coreId ∨
      rc = -1 ∧ ¬ ValidCore runs nodeId socketId coreId) ∧
    core'.nbits = core.nbits ∧
    ∀ j : Nat, core'.bit j = true ↔ core.bit j = true ∨
      ValidCore runs nodeId socketId coreId ∧
        getSelectJobResOffset s nodeId socketId coreId = some (j : Int) := by
  rcases offset_spec h hn nodeId socketId coreId with ⟨hvalid, o, ho, hget⟩ | ⟨hno, hget⟩
  · refine ⟨0, bitSet core o, ?_, Or.inl ⟨rfl, hvalid⟩, rfl, ?_⟩
    · simp only [setSelectJobResBit, hget, h.bitmap, Option.bind_eq_bind, Option.bind_some]
      rw [if_neg (by omega), Int.toNat_natCast]
    · intro j
      rw [bit_bitSet_iff ho, hget, Option.some.injEq, Nat.cast_inj]
      simp [hvalid]
  · refine ⟨-1, core, ?_, Or.inr ⟨rfl, hno⟩, rfl, ?_⟩
    · have hsame : { s with coreBitmap := some core } = s := by
        rw [← h.bitmap]
      simp [setSelectJobResBit, hget, h.bitmap, hsame]
    · intro j
      simp [hno]

theorem getNode_spec (h : Described s n runs core) (hn : s.nhosts.toNat ≤ n) (nodeId : UInt32) :
    ∃ rc, getSelectJobResNode s nodeId = some rc ∧ (rc = 0 ∨ rc = 1) ∧
    (rc = 1 ↔ ∃ socketId coreId, ∃ o : Nat, ValidCore runs nodeId socketId coreId ∧
      getSelectJobResOffset s nodeId socketId coreId = some (o : Int) ∧ core.bit o = true) := by
  obtain ⟨start, len, hbits, hle, hcores⟩ := nodeBits_spec h hn nodeId
  have hexists : (∃ socketId coreId, ∃ o : Nat, ValidCore runs nodeId socketId coreId ∧
      getSelectJobResOffset s nodeId socketId coreId = some (o : Int) ∧ core.bit o = true) ↔
      ∃ o, (start ≤ o ∧ o < start + len) ∧ core.bit o = true := by
    constructor
    · rintro ⟨socketId, coreId, o, hvalid, hget, hbit⟩
      exact ⟨o, (hcores o).mp ⟨socketId, coreId, hvalid, hget⟩, hbit⟩
    · rintro ⟨o, ho, hbit⟩
      obtain ⟨socketId, coreId, hvalid, hget⟩ := (hcores o).mpr ho
      exact ⟨socketId, coreId, o, hvalid, hget, hbit⟩
  rw [hexists]
  simp only [getSelectJobResNode, hbits, h.bitmap, Option.bind_eq_bind, Option.bind_some]
  by_cases hlen : len = 0
  · subst hlen
    refine ⟨0, if_pos (by omega), Or.inl rfl, ?_⟩
    apply iff_of_false (by decide)
    rintro ⟨o, ho, -⟩
    omega
  · rw [if_neg (by omega), if_neg (by omega), Int.toNat_natCast, Int.toNat_natCast]
    have hany : ((List.range len).any fun i => bitTest core (start + i)) = true ↔
        ∃ o, (start ≤ o ∧ o < start + len) ∧ core.bit o = true := by
      rw [List.any_eq_true]
      constructor
      · rintro ⟨i, hi, hbit⟩
        rw [List.mem_range] at hi
        exact ⟨start + i, ⟨Nat.le_add_right _ _, by omega⟩, hbit⟩
      · rintro ⟨o, ⟨hlo, hhi⟩, hbit⟩
        refine ⟨o - start, List.mem_range.mpr (by omega), ?_⟩
        rw [Nat.add_sub_cancel' hlo]
        exact hbit
    rw [← hany]
    cases (List.range len).any fun i => bitTest core (start + i) with
    | true => exact ⟨1, rfl, Or.inr rfl, by simp⟩
    | false => exact ⟨0, rfl, Or.inl rfl, by simp⟩

theorem setNode_spec (h : Described s n runs core) (hn : s.nhosts.toNat ≤ n) (nodeId : UInt32) :
    ∃ rc core',
    setSelectJobResNode s nodeId = some (rc, { s with coreBitmap := some core' }) ∧
    (rc = 0 ∧ (∃ socketId coreId, ValidCore runs nodeId socketId coreId) ∨
      rc = -1 ∧ ¬ ∃ socketId coreId, ValidCore runs nodeId socketId coreId) ∧
    core'.nbits = core.nbits ∧
    ∀ j : Nat, core'.bit j = true ↔ core.bit j = true ∨ ∃ socketId coreId,
      ValidCore runs nodeId socketId coreId ∧
        getSelectJobResOffset s nodeId socketId coreId = some (j : Int) := by
  obtain ⟨start, len, hbits, hle, hcores⟩ := nodeBits_spec h hn nodeId
  have hsome : (∃ socketId coreId, ValidCore runs nodeId socketId coreId) ↔ 0 < len := by
    constructor
    · rintro ⟨socketId, coreId, hvalid⟩
      rcases offset_spec h hn nodeId socketId coreId with ⟨-, o, -, hget⟩ | ⟨hno, -⟩
      · have ho := (hcores o).mp ⟨socketId, coreId, hvalid, hget⟩
        omega
      · exact absurd hvalid hno
    · intro hlen
      obtain ⟨socketId, coreId, hvalid, -⟩ := (hcores start).mpr ⟨Nat.le_refl _, by omega⟩
      exact ⟨socketId, coreId, hvalid⟩
  simp only [hsome, hcores]
  by_cases hlen : len = 0
  · subst hlen
    refine ⟨-1, core, ?_, Or.inr ⟨rfl, Nat.lt_irrefl 0⟩, rfl, ?_⟩
    · have hsame : { s with coreBitmap := some core } = s := by
        rw [← h.bitmap]
      simp [setSelectJobResNode, hbits, h.bitmap, hsame]
    · intro j
      simp
  · refine ⟨0, (List.range len).foldl (fun b i => bitSet b (start + i)) core, ?_,
      Or.inl ⟨rfl, by omega⟩, nbits_setRange core start len, bit_setRange hle⟩
    simp only [setSelectJobResNode, hbits, h.bitmap, Option.bind_eq_bind, Option.bind_some]
    rw [if_neg (by omega), if_neg (by omega), Int.toNat_natCast, Int.toNat_natCast]

/-- The functions are right for every node number, socket and core exactly when
the arrays have an entry for each node of the job. -/
theorem offsetsRight_iff (h : Described s n runs core) :
    OffsetsRight s runs core ↔ s.nhosts.toNat ≤ n := by
  constructor
  · intro hright
    by_contra hn
    -- the first number that is no node's
    have hnot : ¬ ValidCore runs s.nhosts 0 0 := by
      rintro ⟨shape, hshape, -⟩
      have hlt := (List.getElem?_eq_some_iff.mp hshape).1
      rw [h.nodes] at hlt
      exact Nat.lt_irrefl _ hlt
    have hget := hright.outside s.nhosts 0 0 hnot
    rw [offset_past h (Nat.le_refl _), if_neg hn] at hget
    cases hget
  · intro hn
    constructor
    · intro nodeId socketId coreId hno
      rcases offset_spec h hn nodeId socketId coreId with ⟨hvalid, -⟩ | ⟨-, hget⟩
      · exact absurd hvalid hno
      · exact hget
    · intro nodeId socketId coreId hvalid
      rcases offset_spec h hn nodeId socketId coreId with ⟨-, hget⟩ | ⟨hno, -⟩
      · exact hget
      · exact absurd hvalid hno
    · intro nodeId socketId coreId nodeId' socketId' coreId' hvalid hvalid' heq
      exact offset_injective h hvalid hvalid' heq
    · intro o ho
      exact offset_surjective h ho
    · intro nodeId socketId coreId
      simp only [getSelectJobResBit, h.bitmap, Option.bind_eq_bind, Option.bind_some, bitTest]
      cases getSelectJobResOffset s nodeId socketId coreId <;> rfl
    · exact setBit_spec h hn
    · exact getNode_spec h hn
    · exact setNode_spec h hn

/-- As it is restored the structure has no entries but those of its runs. -/
theorem Described.carried (h : Described s n runs core) :
    Described (s.carried runs.length) runs.length runs core := by
  have hpadded : ∀ {α : Type} (f : NodeRun → α) (zero : α),
      padded runs.length (runs.map f) zero = runs.map f := by
    intro α f zero
    rw [padded, List.length_map, Nat.sub_self, List.replicate_zero, List.append_nil]
  refine ⟨?_, ?_, ?_, Nat.le_refl _, h.pos, h.nodes, h.count, h.bitmap, h.size, h.int⟩
  · rw [Resources.carried, h.sockets, Option.map_some, take_padded_map, hpadded]
  · rw [Resources.carried, h.cores, Option.map_some, take_padded_map, hpadded]
  · rw [Resources.carried, h.reps, Option.map_some, take_padded_map, hpadded]

end

/-- The runs of the three nodes. -/
def threeNodesRuns : List NodeRun := [⟨2, 4, 1⟩, ⟨1, 2, 2⟩]

theorem threeNodesBuilt_described :
    Described threeNodesBuilt 3 threeNodesRuns (bitAlloc 12) where
  sockets := by decide
  cores := by decide
  reps := by decide
  room := by decide
  pos := by decide
  nodes := by decide
  count := by decide
  bitmap := rfl
  size := by decide
  int := by decide

theorem offsetsRight_three : OffsetsRight threeNodesBuilt threeNodesRuns (bitAlloc 12) := by
  apply (offsetsRight_iff threeNodesBuilt_described).mpr
  decide

/-- With the arrays that are restored, of two runs for three nodes, the loop for
node number 3 reads behind them. -/
theorem not_offsetsRight_restored :
    Described (threeNodesBuilt.carried 2) 2 threeNodesRuns (bitAlloc 12) ∧
      ¬ ValidCore threeNodesRuns 3 0 0 ∧
      getSelectJobResOffset (threeNodesBuilt.carried 2) 3 0 0 = none := by
  refine ⟨threeNodesBuilt_described.carried, ?_, by decide⟩
  rintro ⟨shape, hshape, -⟩
  cases hshape

end Slurm.JobResources
