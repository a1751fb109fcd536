import SlurmLite.Bitstring.Canonical
import SlurmLite.SelectJobRes

/-!
# Jobs on a row of cores

`can_select_job_cores_fit` and `add_select_job_to_row` of `select_job_res.c`:
whether the cores of a job are free in a row that holds one bit for each core
of the system, and the row with those cores taken.

* **Places** (`placesFrom`): where the cores of a job stand in the row.
* **Both loops** (`canFitLoop_eq`, `addLoop_eq`): acceptance and insertion look
  at these places in the same order.
* **Runs** (`row_count`): the row has as many cores taken as its jobs have, in systems whose
  cores and nodes a bitmap can hold; `row_count_wraps`: in a larger one the counters wrap.
-/

namespace Slurm.JobRes

open Slurm.Bitstring

/-- The part of `struct select_job_res` the two functions use. -/
structure JobCores where
  nhosts : Nat
  nodeBitmap : Bitstr
  coreBitmap : Option Bitstr
deriving DecidableEq

/-- The counters of both loops: nodes of the job and of the system so far, the
run of the node tables, and the positions in the row and in the job. -/
structure Walk where
  i : Nat
  n : Nat
  count : Nat
  lastBit : Nat
  c : Nat
  j : Nat
  k : Nat
deriving DecidableEq

/-- Before the loops. -/
def Walk.start : Walk := ⟨0, 0, 1, 0, 0, 0, 0⟩

/-- The counters and the size of a row are `uint32_t`. -/
def u32 (n : Nat) : Nat := n % 4294967296

theorem u32_of_le {n : Nat} (h : n ≤ maxBits) : u32 n = n :=
  Nat.mod_eq_of_lt (Nat.lt_of_le_of_lt h (by decide))

/-- The next node: the end of its cores, and the run of the node after it. -/
def Walk.next (cores reps : List Nat) (w : Walk) : Option Walk := do
  let size ← cores[w.k]?
  let rep ← reps[w.k]?
  let lastBit := u32 (w.lastBit + size)
  let count := u32 (w.count + 1)
  if count > rep then some { w with lastBit := lastBit, k := u32 (w.k + 1), count := 1 }
  else some { w with lastBit := lastBit, count := count }

/-- Behind the cores of a node of the job. -/
def Walk.took (w : Walk) : Walk :=
  { w with
    i := u32 (w.i + 1), n := u32 (w.n + 1), c := max w.c w.lastBit
    j := u32 (w.j + (w.lastBit - w.c)) }

/-- Behind a node that is none of the job's. -/
def Walk.passed (w : Walk) : Walk := { w with n := u32 (w.n + 1), c := w.lastBit }

/-- The loop over the cores of one node: whether one is taken already. A job
without a core bitmap is looked at only where the row has a core taken. -/
def clashes (full : Bitstr) (core : Option Bitstr) (c j len : Nat) : Option Bool :=
  match core with
  | some core => some ((List.range len).any fun d => bitTest full (c + d) && bitTest core (j + d))
  | none => if (List.range len).any fun d => bitTest full (c + d) then none else some false

/-- The loop of `can_select_job_cores_fit`, for at most `fuel` nodes. -/
def canFitLoop (job : JobCores) (full : Bitstr) (cores reps : List Nat) : Nat → Walk → Option Nat
  | 0, w => if w.i < job.nhosts then none else some 1
  | fuel + 1, w =>
    if w.i < job.nhosts then do
      let w ← w.next cores reps
      if bitTest job.nodeBitmap w.n then
        if ← clashes full job.coreBitmap w.c w.j (w.lastBit - w.c) then some 0
        else canFitLoop job full cores reps fuel w.took
      else canFitLoop job full cores reps fuel w.passed
    else some 1

/-- `can_select_job_cores_fit`. -/
def canSelectJobCoresFit (job : JobCores) (full : Option Bitstr)
    (bitsPerNode bitRepCount : List Nat)
    (fuel : Nat) : Option Nat :=
  match full with
  | none => some 1
  | some full => canFitLoop job full bitsPerNode bitRepCount fuel .start

/-- The cores of one node are set in the row where the job has them. -/
def setCores (core : Bitstr) (full : Bitstr) (c j len : Nat) : Bitstr :=
  (List.range len).foldl
    (fun full d => if bitTest core (j + d) then bitSet full (c + d) else full) full

/-- The loop of `add_select_job_to_row`, for at most `fuel` nodes. -/
def addLoop (job : JobCores) (core : Bitstr) (cores reps : List Nat) :
    Nat → Walk → Bitstr → Option Bitstr
  | 0, w, full => if w.i < job.nhosts then none else some full
  | fuel + 1, w, full =>
    if w.i < job.nhosts then do
      let w ← w.next cores reps
      if bitTest job.nodeBitmap w.n then
        addLoop job core cores reps fuel w.took
          (setCores core full w.c w.j (w.lastBit - w.c))
      else addLoop job core cores reps fuel w.passed full
    else some full

/-- The size of a row: the tables are read up to a repeat count of zero. -/
def rowSize : List Nat → List Nat → Nat
  | size :: cores, rep :: reps => if rep = 0 then 0 else u32 (size * rep + rowSize cores reps)
  | _, _ => 0

/-- The row the cores are set in: a new one has the size of the tables, which has to be one
`bit_alloc` takes. -/
def openRow (full : Option Bitstr) (coresPerNode coreRepCount : List Nat) : Option Bitstr :=
  match full with
  | some full => some full
  | none =>
    let size := rowSize coresPerNode coreRepCount
    if size ≤ maxBits then some (bitAlloc size) else none

/-- `add_select_job_to_row`. -/
def addSelectJobToRow (job : JobCores) (full : Option Bitstr) (coresPerNode coreRepCount : List Nat)
    (fuel : Nat) : Option (Option Bitstr) :=
  match job.coreBitmap with
  | none => some full
  | some core => do
    let full ← openRow full coresPerNode coreRepCount
    (addLoop job core coresPerNode coreRepCount fuel .start full).map some

/-! ## The node tables -/

/-- The cores of the nodes as runs of nodes alike. -/
structure CoreTable where
  runs : List (Nat × Nat)
  pos : ∀ r ∈ runs, 0 < r.2

/-- The tables as arrays; a repeat count of zero ends them. -/
def CoreTable.coresPerNode (t : CoreTable) : List Nat := t.runs.map (·.1) ++ [0]
def CoreTable.coreRepCount (t : CoreTable) : List Nat := t.runs.map (·.2) ++ [0]

/-- The number of cores of each node. -/
def expand (runs : List (Nat × Nat)) : List Nat := runs.flatMap fun r => List.replicate r.2 r.1

/-- The cores and the nodes of the system are not more than a bitmap can hold. -/
structure CoreTable.Fits (t : CoreTable) : Prop where
  cores : (expand t.runs).sum ≤ maxBits
  nodes : (expand t.runs).length ≤ maxBits

/-- Where the cores of a job stand in the row, over the nodes from the `n`th on,
whose cores begin at `c`. -/
def placesFrom (node : Bitstr) : Nat → Nat → List Nat → List Nat
  | _, _, [] => []
  | n, c, size :: sizes =>
    (if bitTest node n then List.range' c size else []) ++
      placesFrom node (n + 1) (c + size) sizes

/-- How many of the nodes from the `n`th on are nodes of the job. -/
def nodesFrom (node : Bitstr) (n : Nat) (sizes : List Nat) : Nat :=
  (List.range' n sizes.length).countP fun m => bitTest node m

/-- A job whose bitmaps fit the node tables: it has as many nodes as bits are
set, and its core bitmap has one bit for each core of its nodes. -/
structure Shaped (t : CoreTable) (job : JobCores) : Prop where
  nhosts : job.nhosts = nodesFrom job.nodeBitmap 0 (expand t.runs)
  cores : ∀ core, job.coreBitmap = some core →
    core.nbits = (placesFrom job.nodeBitmap 0 0 (expand t.runs)).length

/-- The tables are at the node whose cores are the first of `sizes`: the rest of
the run `k`, then the runs after it. -/
def AtNode (runs : List (Nat × Nat)) (k count : Nat) (sizes : List Nat) : Prop :=
  runs.length ≤ k ∧ sizes = [] ∨
    ∃ r, runs[k]? = some r ∧ 1 ≤ count ∧ count ≤ r.2 ∧
      sizes = List.replicate (r.2 + 1 - count) r.1 ++ expand (runs.drop (k + 1))

theorem expand_cons (r : Nat × Nat) (runs : List (Nat × Nat)) :
    expand (r :: runs) = List.replicate r.2 r.1 ++ expand runs := List.flatMap_cons

theorem atNode_drop (t : CoreTable) (k : Nat) : AtNode t.runs k 1 (expand (t.runs.drop k)) := by
  by_cases hk : k < t.runs.length
  · have hpos := t.pos _ (List.getElem_mem hk)
    refine Or.inr ⟨t.runs[k], List.getElem?_eq_getElem hk, Nat.le_refl 1, hpos, ?_⟩
    rw [List.drop_eq_getElem_cons hk, expand_cons, Nat.add_sub_cancel]
  · refine Or.inl ⟨Nat.le_of_not_lt hk, ?_⟩
    rw [List.drop_eq_nil_of_le (Nat.le_of_not_lt hk)]
    rfl

theorem CoreTable.Fits.rep {t : CoreTable} (h : t.Fits) {r : Nat × Nat} (hr : r ∈ t.runs) :
    r.2 ≤ maxBits := by
  refine Nat.le_trans ?_ h.nodes
  rw [expand, List.length_flatMap]
  have hlen : r.2 = (List.replicate r.2 r.1).length := List.length_replicate.symm
  rw [hlen]
  exact List.le_sum_of_mem (List.mem_map_of_mem hr)

/-- One step along the tables. -/
theorem next_spec {t : CoreTable} (ht : t.Fits) {w : Walk} {size : Nat} {sizes : List Nat}
    (h : AtNode t.runs w.k w.count (size :: sizes)) (hlast : w.lastBit + size ≤ maxBits)
    (hk : w.k + 1 ≤ maxBits) :
    ∃ k count, w.next t.coresPerNode t.coreRepCount =
        some { w with lastBit := w.lastBit + size, k := k, count := count } ∧
      k ≤ w.k + 1 ∧ AtNode t.runs k count sizes := by
  obtain ⟨-, hnil⟩ | ⟨r, hr, h1, h2, hsizes⟩ := h
  · cases hnil
  · have hlt : w.k < t.runs.length := (List.getElem?_eq_some_iff.mp hr).1
    have hcore : t.coresPerNode[w.k]? = some r.1 := by
      rw [CoreTable.coresPerNode, List.getElem?_append_left (by rwa [List.length_map]),
        List.getElem?_map, hr]
      rfl
    have hrep : t.coreRepCount[w.k]? = some r.2 := by
      rw [CoreTable.coreRepCount, List.getElem?_append_left (by rwa [List.length_map]),
        List.getElem?_map, hr]
      rfl
    have hmax := ht.rep (List.mem_of_getElem? hr)
    have hcount : u32 (w.count + 1) = w.count + 1 := by
      have hbits : maxBits = 2147483647 := rfl
      exact Nat.mod_eq_of_lt (by omega)
    have hfirst : r.2 + 1 - w.count = (r.2 - w.count) + 1 := by omega
    rw [hfirst, List.replicate_succ, List.cons_append] at hsizes
    obtain ⟨rfl, rfl⟩ := List.cons.inj hsizes
    by_cases hend : w.count + 1 > r.2
    · refine ⟨w.k + 1, 1, ?_, Nat.le_refl _, ?_⟩
      · simp only [Walk.next, hcore, hrep, Option.bind_eq_bind, Option.bind_some, hcount,
          u32_of_le hlast, u32_of_le hk, if_pos hend]
      · have hzero : r.2 - w.count = 0 := by omega
        rw [hzero]
        exact atNode_drop t (w.k + 1)
    · refine ⟨w.k, w.count + 1, ?_, Nat.le_succ _, ?_⟩
      · simp only [Walk.next, hcore, hrep, Option.bind_eq_bind, Option.bind_some, hcount,
          u32_of_le hlast, if_neg hend]
      · refine Or.inr ⟨r, hr, by omega, by omega, ?_⟩
        have hmore : r.2 + 1 - (w.count + 1) = r.2 - w.count := by omega
        rw [hmore]

theorem rowSize_table {t : CoreTable} (ht : t.Fits) :
    rowSize t.coresPerNode t.coreRepCount = (expand t.runs).sum := by
  obtain ⟨runs, hpos⟩ := t
  have hsum : (expand runs).sum ≤ maxBits := ht.cores
  clear ht
  unfold CoreTable.coresPerNode CoreTable.coreRepCount
  induction runs with
  | nil => rfl
  | cons r runs ih =>
    have hr := hpos r List.mem_cons_self
    have hcons : (expand (r :: runs)).sum = r.1 * r.2 + (expand runs).sum := by
      rw [expand_cons, List.sum_append, List.sum_replicate, smul_eq_mul, Nat.mul_comm]
    have hrest := ih (fun s hs => hpos s (List.mem_cons_of_mem _ hs)) (by omega)
    simp only [List.map_cons, List.cons_append] at hrest ⊢
    rw [rowSize, if_neg (by omega), hrest, ← hcons, u32_of_le hsum]

/-! ## Both loops -/

theorem nodesFrom_cons (node : Bitstr) (n size : Nat) (sizes : List Nat) :
    nodesFrom node n (size :: sizes) =
      (if bitTest node n then 1 else 0) + nodesFrom node (n + 1) sizes := by
  unfold nodesFrom
  rw [List.length_cons, List.range'_succ, List.countP_cons, Nat.add_comm]

theorem placesFrom_of_no_nodes {node : Bitstr} {sizes : List Nat} {n c : Nat}
    (h : nodesFrom node n sizes = 0) : placesFrom node n c sizes = [] := by
  induction sizes generalizing n c with
  | nil => rfl
  | cons size sizes ih =>
    rw [nodesFrom_cons] at h
    by_cases hn : bitTest node n
    · rw [if_pos hn] at h
      omega
    · rw [if_neg hn, Nat.zero_add] at h
      rw [placesFrom, if_neg hn, List.nil_append, ih h]

theorem zipIdx_range' (c j len : Nat) :
    (List.range' c len).zipIdx j = (List.range len).map fun d => (c + d, j + d) := by
  refine List.ext_getElem (by simp) fun d h1 h2 => ?_
  simp

/-- A core of the job is taken in the row already. -/
def taken (full core : Bitstr) (p : Nat × Nat) : Bool := bitTest full p.1 && bitTest core p.2

/-- A core of the job is set in the row. -/
def setCore (core : Bitstr) (full : Bitstr) (p : Nat × Nat) : Bitstr :=
  if bitTest core p.2 then bitSet full p.1 else full

theorem clashes_some (full core : Bitstr) (c j len : Nat) :
    clashes full (some core) c j len =
      some (((List.range' c len).zipIdx j).any (taken full core)) := by
  rw [zipIdx_range', List.any_map]
  rfl

theorem setCores_eq (core full : Bitstr) (c j len : Nat) :
    setCores core full c j len = ((List.range' c len).zipIdx j).foldl (setCore core) full := by
  rw [zipIdx_range', List.foldl_map]
  rfl

/-- The loop head: the tables are at the next node, its cores begin where the
last node's ended, the nodes of the job still to come are ahead, and the counters
have room for what is left of the system. -/
structure AtHead (t : CoreTable) (job : JobCores) (w : Walk) (sizes : List Nat) : Prop where
  node : AtNode t.runs w.k w.count sizes
  here : w.lastBit = w.c
  left : w.i + nodesFrom job.nodeBitmap w.n sizes = job.nhosts
  cores : w.c + sizes.sum ≤ maxBits
  nodes : w.n + sizes.length ≤ maxBits
  counters : w.i ≤ w.n ∧ w.k ≤ w.n ∧ w.j ≤ w.c

/-- What one turn of either loop finds, and the loop head after it. -/
theorem AtHead.turn {t : CoreTable} (ht : t.Fits) {job : JobCores} {w : Walk} {size : Nat}
    {sizes : List Nat} (h : AtHead t job w (size :: sizes)) :
    ∃ w', w.next t.coresPerNode t.coreRepCount = some w' ∧ w'.n = w.n ∧ w'.j = w.j ∧
      w'.c = w.c ∧ w'.lastBit = w.c + size ∧
      (bitTest job.nodeBitmap w.n = true → AtHead t job w'.took sizes ∧
        w'.took.n = w.n + 1 ∧ w'.took.c = w.c + size ∧ w'.took.j = w.j + size) ∧
      (bitTest job.nodeBitmap w.n = false → AtHead t job w'.passed sizes ∧
        w'.passed.n = w.n + 1 ∧ w'.passed.c = w.c + size ∧ w'.passed.j = w.j) := by
  obtain ⟨hnode, hhere, hleft, hcores, hnodes, hi, hk, hj⟩ := h
  rw [List.sum_cons] at hcores
  rw [List.length_cons] at hnodes
  obtain ⟨k, count, hnext, hk', hat⟩ := next_spec ht hnode (by omega) (by omega)
  rw [nodesFrom_cons] at hleft
  have hi' : u32 (w.i + 1) = w.i + 1 := u32_of_le (by omega)
  have hn' : u32 (w.n + 1) = w.n + 1 := u32_of_le (by omega)
  have hlen : w.lastBit + size - w.c = size := by omega
  have hj' : u32 (w.j + size) = w.j + size := u32_of_le (by omega)
  refine ⟨_, hnext, rfl, rfl, rfl, by rw [hhere], ?_, ?_⟩
  · intro hbit
    rw [if_pos hbit] at hleft
    simp only [Walk.took, hi', hn', hlen, hj']
    refine ⟨⟨hat, ?_, ?_, ?_, ?_, ?_, ?_, ?_⟩, trivial, by omega, trivial⟩ <;> simp only <;>
      omega
  · intro hbit
    rw [hbit, if_neg Bool.false_ne_true] at hleft
    simp only [Walk.passed, hn']
    refine ⟨⟨hat, rfl, ?_, ?_, ?_, ?_, ?_, ?_⟩, trivial, by omega, trivial⟩ <;> simp only <;>
      omega

/-- Behind the last node no node of the job is left. -/
theorem AtHead.nil {t : CoreTable} {job : JobCores} {w : Walk} (h : AtHead t job w []) :
    ¬w.i < job.nhosts := by
  have hleft := h.left
  simp only [nodesFrom, List.length_nil, List.range'_zero, List.countP_nil] at hleft
  omega

theorem AtHead.done {t : CoreTable} {job : JobCores} {w : Walk} {sizes : List Nat}
    (h : AtHead t job w sizes) (hi : ¬w.i < job.nhosts) (c : Nat) :
    placesFrom job.nodeBitmap w.n c sizes = [] :=
  placesFrom_of_no_nodes (by have := h.left; omega)

theorem canFitLoop_eq {t : CoreTable} (ht : t.Fits) {job : JobCores} {full core : Bitstr}
    (hcore : job.coreBitmap = some core) {sizes : List Nat} {w : Walk} {fuel : Nat}
    (h : AtHead t job w sizes) (hfuel : sizes.length ≤ fuel) :
    canFitLoop job full t.coresPerNode t.coreRepCount fuel w =
      some (if ((placesFrom job.nodeBitmap w.n w.c sizes).zipIdx w.j).any (taken full core)
        then 0 else 1) := by
  induction sizes generalizing w fuel with
  | nil =>
    have hi := h.nil
    cases fuel <;> rw [canFitLoop, if_neg hi] <;> rfl
  | cons size sizes ih =>
    obtain ⟨fuel, rfl⟩ : ∃ m, fuel = m + 1 := ⟨fuel - 1, by simp at hfuel; omega⟩
    have hfuel' : sizes.length ≤ fuel := by simpa using hfuel
    by_cases hi : w.i < job.nhosts
    · obtain ⟨w', hnext, hn, hj, hc, hlast, hset, hunset⟩ := h.turn ht
      have hlen : w'.lastBit - w'.c = size := by omega
      rw [canFitLoop, if_pos hi, hnext]
      simp only [Option.bind_eq_bind, Option.bind_some]
      rw [hn]
      by_cases hbit : bitTest job.nodeBitmap w.n = true
      · obtain ⟨hhead, hn', hc', hj'⟩ := hset hbit
        have hrec := ih hhead hfuel'
        rw [hn', hc', hj'] at hrec
        rw [if_pos hbit, hcore, clashes_some, hlen, hc, hj, Option.bind_some, placesFrom,
          if_pos hbit, List.zipIdx_append, List.any_append]
        by_cases hclash : ((List.range' w.c size).zipIdx w.j).any (taken full core) = true
        · rw [if_pos hclash, hclash, Bool.true_or]
          rfl
        · rw [if_neg hclash]
          rw [Bool.not_eq_true] at hclash
          rw [hclash, Bool.false_or, List.length_range']
          exact hrec
      · have hbit' : bitTest job.nodeBitmap w.n = false := Bool.not_eq_true _ ▸ hbit
        obtain ⟨hhead, hn', hc', hj'⟩ := hunset hbit'
        have hrec := ih hhead hfuel'
        rw [hn', hc', hj'] at hrec
        rw [if_neg hbit, placesFrom, if_neg hbit, List.nil_append]
        exact hrec
    · rw [canFitLoop, if_neg hi, h.done hi]
      rfl

theorem addLoop_eq {t : CoreTable} (ht : t.Fits) {job : JobCores} {core : Bitstr} {sizes : List Nat} {w : Walk}
    {fuel : Nat} {full : Bitstr} (h : AtHead t job w sizes) (hfuel : sizes.length ≤ fuel) :
    addLoop job core t.coresPerNode t.coreRepCount fuel w full =
      some (((placesFrom job.nodeBitmap w.n w.c sizes).zipIdx w.j).foldl (setCore core) full) := by
  induction sizes generalizing w fuel full with
  | nil =>
    have hi := h.nil
    cases fuel <;> rw [addLoop, if_neg hi] <;> rfl
  | cons size sizes ih =>
    obtain ⟨fuel, rfl⟩ : ∃ m, fuel = m + 1 := ⟨fuel - 1, by simp at hfuel; omega⟩
    have hfuel' : sizes.length ≤ fuel := by simpa using hfuel
    by_cases hi : w.i < job.nhosts
    · obtain ⟨w', hnext, hn, hj, hc, hlast, hset, hunset⟩ := h.turn ht
      have hlen : w'.lastBit - w'.c = size := by omega
      rw [addLoop, if_pos hi, hnext]
      simp only [Option.bind_eq_bind, Option.bind_some]
      rw [hn]
      by_cases hbit : bitTest job.nodeBitmap w.n = true
      · obtain ⟨hhead, hn', hc', hj'⟩ := hset hbit
        have hrec := @ih _ _ (setCores core full w.c w.j size) hhead hfuel'
        rw [hn', hc', hj'] at hrec
        rw [if_pos hbit, hlen, hc, hj, placesFrom, if_pos hbit, List.zipIdx_append,
          List.foldl_append, ← setCores_eq, List.length_range']
        exact hrec
      · have hbit' : bitTest job.nodeBitmap w.n = false := Bool.not_eq_true _ ▸ hbit
        obtain ⟨hhead, hn', hc', hj'⟩ := hunset hbit'
        have hrec := @ih _ _ full hhead hfuel'
        rw [hn', hc', hj'] at hrec
        rw [if_neg hbit, placesFrom, if_neg hbit, List.nil_append]
        exact hrec
    · rw [addLoop, if_neg hi, h.done hi]
      rfl

theorem atHead_start {t : CoreTable} (ht : t.Fits) {job : JobCores} (h : Shaped t job) :
    AtHead t job .start (expand t.runs) where
  node := atNode_drop t 0
  here := rfl
  left := by
    show 0 + nodesFrom job.nodeBitmap 0 (expand t.runs) = job.nhosts
    rw [h.nhosts, Nat.zero_add]
  cores := by
    show 0 + (expand t.runs).sum ≤ maxBits
    rw [Nat.zero_add]
    exact ht.cores
  nodes := by
    show 0 + (expand t.runs).length ≤ maxBits
    rw [Nat.zero_add]
    exact ht.nodes
  counters := ⟨Nat.le_refl _, Nat.le_refl _, Nat.le_refl _⟩

/-- The places of the job's cores in the row, each with its bit in the job. -/
def CoreTable.places (t : CoreTable) (job : JobCores) : List (Nat × Nat) :=
  (placesFrom job.nodeBitmap 0 0 (expand t.runs)).zipIdx

/-- The answer for a job with a core bitmap: none of its cores is taken. -/
theorem canSelectJobCoresFit_eq {t : CoreTable} (ht : t.Fits) {job : JobCores}
    {full core : Bitstr} (h : Shaped t job) (hcore : job.coreBitmap = some core) :
    canSelectJobCoresFit job (some full) t.coresPerNode t.coreRepCount (expand t.runs).length =
      some (if (t.places job).any (taken full core) then 0 else 1) :=
  canFitLoop_eq ht hcore (atHead_start ht h) (Nat.le_refl _)

/-- The row afterwards. -/
theorem addSelectJobToRow_eq {t : CoreTable} (ht : t.Fits) {job : JobCores} {core : Bitstr}
    (h : Shaped t job) (hcore : job.coreBitmap = some core) (full : Option Bitstr) :
    addSelectJobToRow job full t.coresPerNode t.coreRepCount (expand t.runs).length =
      some (some ((t.places job).foldl (setCore core)
        (full.getD (bitAlloc (expand t.runs).sum)))) := by
  have hopen : openRow full t.coresPerNode t.coreRepCount =
      some (full.getD (bitAlloc (expand t.runs).sum)) := by
    cases full with
    | some full => rfl
    | none =>
      simp only [openRow, rowSize_table ht]
      exact if_pos ht.cores
  rw [addSelectJobToRow, hcore]
  simp only [hopen, Option.bind_eq_bind, Option.bind_some]
  rw [addLoop_eq ht (atHead_start ht h) (Nat.le_refl _)]
  rfl

/-! ## Counting -/

/-- The number of bits set, as `bit_set_count` counts them. -/
def coreCount (b : Bitstr) : Nat := ((Finset.range b.nbits).filter fun i => b.bit i).card

theorem nbits_setCore (core full : Bitstr) (p : Nat × Nat) :
    (setCore core full p).nbits = full.nbits := by
  unfold setCore
  split <;> rfl

theorem coreCount_bitAlloc (n : Nat) : coreCount (bitAlloc n) = 0 := by
  rw [coreCount, Finset.card_eq_zero, Finset.filter_eq_empty_iff]
  intro i _
  rw [bit_bitAlloc]
  exact Bool.false_ne_true

theorem bit_bitSet (b : Bitstr) {i : Nat} (hi : i < b.nbits) (j : Nat) :
    (bitSet b i).bit j = if j = i then true else b.bit j := by
  have hw := lt_words b hi
  rw [bitSet, bit_bitPut]
  by_cases hj : j = i
  · rw [if_pos ⟨hj, hw⟩, if_pos hj]
  · rw [if_neg fun h => hj h.1, if_neg hj]

theorem coreCount_bitSet {b : Bitstr} {i : Nat} (hi : i < b.nbits) (hfree : b.bit i = false) :
    coreCount (bitSet b i) = coreCount b + 1 := by
  have hins : (Finset.range (bitSet b i).nbits).filter (fun j => (bitSet b i).bit j) =
      insert i ((Finset.range b.nbits).filter fun j => b.bit j) := by
    ext j
    rw [Finset.mem_filter, Finset.mem_insert, Finset.mem_filter, bit_bitSet b hi]
    show j ∈ Finset.range b.nbits ∧ _ ↔ _
    by_cases hj : j = i
    · subst hj
      simp [hi]
    · simp [hj]
  rw [coreCount, hins, Finset.card_insert_of_notMem]
  · rfl
  · rw [Finset.mem_filter, hfree]
    exact fun h => Bool.false_ne_true h.2

/-- Setting the cores of a job, none of which is taken, adds their number. -/
theorem coreCount_foldl {core : Bitstr} {ps : List (Nat × Nat)} {full : Bitstr}
    (hnodup : (ps.map (·.1)).Nodup) (hlt : ∀ p ∈ ps, p.1 < full.nbits)
    (hfree : ∀ p ∈ ps, taken full core p = false) :
    coreCount (ps.foldl (setCore core) full) =
      coreCount full + ps.countP (fun p => bitTest core p.2) := by
  induction ps generalizing full with
  | nil => rfl
  | cons p ps ih =>
    rw [List.map_cons, List.nodup_cons] at hnodup
    have hp := hlt p List.mem_cons_self
    have hpfree := hfree p List.mem_cons_self
    have hrest : ∀ q ∈ ps, taken (setCore core full p) core q = false := by
      intro q hq
      have hne : q.1 ≠ p.1 := by
        rintro heq
        exact hnodup.1 (heq ▸ List.mem_map_of_mem hq)
      have hbit : bitTest (setCore core full p) q.1 = bitTest full q.1 := by
        unfold setCore
        split
        · rw [bitTest, bit_bitSet full hp, if_neg hne]
          rfl
        · rfl
      rw [taken, hbit]
      exact hfree q (List.mem_cons_of_mem _ hq)
    rw [List.foldl_cons, ih hnodup.2 (fun q hq => by
      rw [nbits_setCore]
      exact hlt q (List.mem_cons_of_mem _ hq)) hrest, List.countP_cons]
    unfold setCore
    by_cases hc : bitTest core p.2 = true
    · have hpbit : full.bit p.1 = false := by
        rw [taken, hc, Bool.and_true] at hpfree
        exact hpfree
      rw [if_pos hc, if_pos hc, coreCount_bitSet hp hpbit]
      omega
    · rw [if_neg hc, if_neg hc]
      omega

theorem mem_placesFrom {node : Bitstr} {sizes : List Nat} {n c p : Nat}
    (h : p ∈ placesFrom node n c sizes) : c ≤ p ∧ p < c + sizes.sum := by
  induction sizes generalizing n c with
  | nil => cases h
  | cons size sizes ih =>
    rw [placesFrom] at h
    rw [List.sum_cons]
    obtain h | h := List.mem_append.mp h
    · split at h
      · have := List.mem_range'_1.mp h
        omega
      · cases h
    · have := ih h
      omega

theorem nodup_placesFrom (node : Bitstr) (n c : Nat) (sizes : List Nat) :
    (placesFrom node n c sizes).Nodup := by
  induction sizes generalizing n c with
  | nil => exact List.nodup_nil
  | cons size sizes ih =>
    rw [placesFrom]
    refine List.Nodup.append ?_ (ih _ _) ?_
    · split
      · exact List.nodup_range'
      · exact List.nodup_nil
    · intro p hp hp'
      have := (mem_placesFrom hp').1
      split at hp
      · have := List.mem_range'_1.mp hp
        omega
      · cases hp

/-- A job has a place for each bit of its core bitmap. -/
theorem countP_places {t : CoreTable} {job : JobCores} {core : Bitstr} (h : Shaped t job)
    (hcore : job.coreBitmap = some core) :
    (t.places job).countP (fun p => bitTest core p.2) = coreCount core := by
  have hmap : (t.places job).countP (fun p => bitTest core p.2) =
      ((t.places job).map (·.2)).countP fun i => bitTest core i := (List.countP_map).symm
  rw [hmap, CoreTable.places, List.zipIdx_map_snd, ← h.cores core hcore, coreCount,
    ← List.range_eq_range', List.countP_eq_length_filter, ← List.toFinset_range,
    ← List.toFinset_filter, List.toFinset_card_of_nodup]
  · simp only [bitTest]
  · exact List.nodup_range.filter _

/-! ## Runs -/

/-- A job that fits is added; one that does not ends the run. -/
def placeJob (t : CoreTable) (row : Option Bitstr) (job : JobCores) : Option (Option Bitstr) :=
  if canSelectJobCoresFit job row t.coresPerNode t.coreRepCount (expand t.runs).length = some 1 then
    addSelectJobToRow job row t.coresPerNode t.coreRepCount (expand t.runs).length
  else none

/-- The cores a row has taken. A row that was never used has no bitmap. -/
def rowCount (row : Option Bitstr) : Nat := (row.map coreCount).getD 0

theorem rowCount_bitAlloc (n : Nat) : rowCount (some (bitAlloc n)) = 0 := coreCount_bitAlloc n

/-- The cores of a job. -/
def jobCount (job : JobCores) : Nat := (job.coreBitmap.map coreCount).getD 0

/-- A row has one bit for each core of the system. -/
def RowFits (t : CoreTable) (row : Option Bitstr) : Prop :=
  ∀ b, row = some b → b.nbits = (expand t.runs).sum

theorem nbits_foldl_setCore (core : Bitstr) (ps : List (Nat × Nat)) (full : Bitstr) :
    (ps.foldl (setCore core) full).nbits = full.nbits := by
  induction ps generalizing full with
  | nil => rfl
  | cons p ps ih => exact (ih _).trans (nbits_setCore core full p)

/-- Where a job fits none of its cores is taken. -/
theorem free_of_fit {t : CoreTable} (ht : t.Fits) {row : Option Bitstr} {job : JobCores}
    {core : Bitstr} (hjob : Shaped t job) (hcore : job.coreBitmap = some core)
    (hfit : canSelectJobCoresFit job row t.coresPerNode t.coreRepCount (expand t.runs).length =
      some 1) {p : Nat × Nat} (hp : p ∈ t.places job) :
    taken (row.getD (bitAlloc (expand t.runs).sum)) core p = false := by
  cases row with
  | none =>
    have : bitTest (bitAlloc (expand t.runs).sum) p.1 = false := bit_bitAlloc _ _
    rw [taken, Option.getD_none, this, Bool.false_and]
  | some b =>
    rw [canSelectJobCoresFit_eq ht hjob hcore] at hfit
    by_contra htaken
    have hany : (t.places job).any (taken b core) = true :=
      List.any_eq_true.mpr ⟨p, hp, Bool.not_eq_false _ ▸ htaken⟩
    rw [if_pos hany] at hfit
    cases hfit

/-- A job that is added takes its cores in addition to those taken before. -/
theorem placeJob_count {t : CoreTable} (ht : t.Fits) {row row' : Option Bitstr} {job : JobCores}
    (hrow : RowFits t row) (hjob : Shaped t job) (h : placeJob t row job = some row') :
    RowFits t row' ∧ rowCount row' = rowCount row + jobCount job := by
  unfold placeJob at h
  split at h
  · rename_i hfit
    match hcore : job.coreBitmap with
    | none =>
      rw [addSelectJobToRow, hcore] at h
      obtain rfl := Option.some.inj h
      refine ⟨hrow, ?_⟩
      rw [jobCount, hcore]
      rfl
    | some core =>
      rw [addSelectJobToRow_eq ht hjob hcore] at h
      obtain rfl := Option.some.inj h
      -- the first job of a row makes its bitmap
      have hsize : (row.getD (bitAlloc (expand t.runs).sum)).nbits = (expand t.runs).sum := by
        cases row with
        | none => rfl
        | some b => exact hrow b rfl
      have hcount : coreCount (row.getD (bitAlloc (expand t.runs).sum)) = rowCount row := by
        cases row with
        | none => exact coreCount_bitAlloc _
        | some b => rfl
      have hfree : ∀ p ∈ t.places job,
          taken (row.getD (bitAlloc (expand t.runs).sum)) core p = false := by
        intro p hp
        exact free_of_fit ht hjob hcore hfit hp
      have hnodup : ((t.places job).map (·.1)).Nodup := by
        rw [CoreTable.places, List.zipIdx_map_fst]
        exact nodup_placesFrom _ _ _ _
      have hlt : ∀ p ∈ t.places job,
          p.1 < (row.getD (bitAlloc (expand t.runs).sum)).nbits := by
        intro p hp
        have hmem : p.1 ∈ (t.places job).map (·.1) := List.mem_map_of_mem hp
        rw [CoreTable.places, List.zipIdx_map_fst] at hmem
        have := (mem_placesFrom hmem).2
        rw [hsize]
        omega
      refine ⟨?_, ?_⟩
      · intro b hb
        obtain rfl := Option.some.inj hb
        rw [nbits_foldl_setCore, hsize]
      · show coreCount _ = _
        rw [coreCount_foldl hnodup hlt hfree, hcount, countP_places hjob hcore, jobCount, hcore]
        rfl
  · cases h

/-- On a row without cores taken, the jobs that are accepted one after another
take as many cores as they have: none is taken twice. The cores and nodes are as many as a bitmap
can hold. -/
theorem row_count {t : CoreTable} (ht : t.Fits) {jobs : List JobCores} {row row' : Option Bitstr}
    (hrow : RowFits t row) (hempty : rowCount row = 0) (hjobs : ∀ job ∈ jobs, Shaped t job)
    (h : jobs.foldlM (placeJob t) row = some row') : rowCount row' = (jobs.map jobCount).sum := by
  have hrun : ∀ (js : List JobCores) (r r' : Option Bitstr), RowFits t r →
      (∀ job ∈ js, Shaped t job) → js.foldlM (placeJob t) r = some r' →
      rowCount r' = rowCount r + (js.map jobCount).sum := by
    intro js
    induction js with
    | nil =>
      intro r r' _ _ h
      obtain rfl := Option.some.inj h
      rfl
    | cons job js ih =>
      intro r r' hr hjs h
      rw [List.foldlM_cons, Option.bind_eq_bind, Option.bind_eq_some_iff] at h
      obtain ⟨mid, hmid, h⟩ := h
      obtain ⟨hfits, hcount⟩ := placeJob_count ht hr (hjs job List.mem_cons_self) hmid
      rw [ih mid r' hfits (fun j hj => hjs j (List.mem_cons_of_mem _ hj)) h, hcount,
        List.map_cons, List.sum_cons, Nat.add_assoc]
  rw [hrun jobs row row' hrow hjobs h, hempty, Nat.zero_add]

/-- Two nodes of two cores and one of four. -/
def threeNodes : CoreTable := ⟨[(2, 2), (4, 1)], by decide⟩

/-- A job on the last two nodes, and one that takes what is left of the second. -/
def wideJob : JobCores := ⟨2, bitNset (bitAlloc 3) 1 2, some (bitNset (bitAlloc 6) 1 4)⟩
def narrowJob : JobCores := ⟨1, bitSet (bitAlloc 3) 1, some (bitSet (bitAlloc 2) 0)⟩

/-- Both jobs on an unused row. -/
theorem row_count_two : ∃ row,
    RowFits threeNodes none ∧ rowCount none = 0 ∧
      (∀ job ∈ [wideJob, narrowJob], Shaped threeNodes job) ∧
      [wideJob, narrowJob].foldlM (placeJob threeNodes) none = some row ∧
      rowCount row = ([wideJob, narrowJob].map jobCount).sum := by
  have hfits : RowFits threeNodes none := fun b hb => by cases hb
  have hshaped : ∀ job ∈ [wideJob, narrowJob], Shaped threeNodes job := by
    intro job hjob
    simp only [List.mem_cons, List.not_mem_nil, or_false] at hjob
    obtain rfl | rfl := hjob
    · refine ⟨by decide, fun core hcore => ?_⟩
      obtain rfl := Option.some.inj hcore
      decide
    · refine ⟨by decide, fun core hcore => ?_⟩
      obtain rfl := Option.some.inj hcore
      decide
  have hrun : ([wideJob, narrowJob].foldlM (placeJob threeNodes) none).isSome := by
    decide +kernel
  obtain ⟨row, hrow⟩ := Option.isSome_iff_exists.mp hrun
  exact ⟨row, hfits, rfl, hshaped, hrow,
    row_count ⟨by decide, by decide⟩ hfits rfl hshaped hrow⟩

/-! ## More cores than the counters hold -/

/-- A job on the last node only of `n + 1` nodes alike, with one core of it. -/
def lastNodeJob (n size : Nat) : JobCores :=
  ⟨1, bitSet (bitAlloc (n + 1)) n, some (bitSet (bitAlloc size) 0)⟩

theorem bitTest_lastNode {n m : Nat} (size : Nat) :
    bitTest (lastNodeJob n size).nodeBitmap m = decide (m = n) := by
  show (bitSet (bitAlloc (n + 1)) n).bit m = _
  rw [bit_bitSet _ (Nat.lt_succ_self n), bit_bitAlloc]
  by_cases h : m = n <;> simp [h]

theorem nodesFrom_lastNode (n size : Nat) (sizes : List Nat) (h : sizes.length = n + 1) :
    nodesFrom (lastNodeJob n size).nodeBitmap 0 sizes = 1 := by
  have hcount : (List.range' 0 (n + 1)).count n = 1 :=
    List.count_eq_one_of_mem List.nodup_range' (List.mem_range'_1.mpr ⟨Nat.zero_le _, by omega⟩)
  rw [nodesFrom, h]
  refine (List.countP_congr fun m _ => ?_).trans hcount
  rw [bitTest_lastNode]
  simp

theorem length_placesFrom (node : Bitstr) (n c k size : Nat) :
    (placesFrom node n c (List.replicate k size)).length =
      size * nodesFrom node n (List.replicate k size) := by
  induction k generalizing n c with
  | zero => rfl
  | succ k ih =>
    rw [List.replicate_succ, placesFrom, nodesFrom_cons, List.length_append, ih, Nat.mul_add]
    by_cases hn : bitTest node n
    · rw [if_pos hn, if_pos hn, List.length_range', Nat.mul_one]
    · rw [if_neg hn, if_neg hn, List.length_nil, Nat.mul_zero]

theorem jobCount_lastNode {n size : Nat} (h : 0 < size) : jobCount (lastNodeJob n size) = 1 := by
  show coreCount (bitSet (bitAlloc size) 0) = 1
  have hsize : 0 < (bitAlloc size).nbits := h
  rw [coreCount_bitSet hsize (bit_bitAlloc _ _), coreCount_bitAlloc]

/-- 65538 nodes of 65535 cores. -/
def manyCores : CoreTable := ⟨[(65535, 65538)], by decide⟩

theorem expand_manyCores : expand manyCores.runs = List.replicate 65538 65535 := by
  rw [manyCores, expand_cons]
  exact List.append_nil _

theorem shaped_lastNode : Shaped manyCores (lastNodeJob 65537 65535) where
  nhosts := by
    rw [nodesFrom_lastNode 65537 65535 _ (by rw [expand_manyCores, List.length_replicate])]
    rfl
  cores := by
    intro core hcore
    obtain rfl := Option.some.inj hcore
    rw [expand_manyCores, length_placesFrom,
      nodesFrom_lastNode 65537 65535 _ List.length_replicate]
    rfl

/-- The loop in front of the node `m`. -/
def beforeNode (m : Nat) : Walk := ⟨0, m, m + 1, 65535 * m, 65535 * m, 0, 0⟩

/-- Before the last node no counter wraps, and nothing is set. -/
theorem addLoop_beforeLast {core full : Bitstr} {fuel : Nat} :
    ∀ {m : Nat}, m ≤ 65537 →
      addLoop (lastNodeJob 65537 65535) core manyCores.coresPerNode manyCores.coreRepCount
        (m + fuel) (beforeNode (65537 - m)) full =
      addLoop (lastNodeJob 65537 65535) core manyCores.coresPerNode manyCores.coreRepCount
        fuel (beforeNode 65537) full := by
  intro m
  induction m with
  | zero => exact fun _ => by rw [Nat.zero_add, Nat.sub_zero]
  | succ m ih =>
    intro hm
    have hcount : u32 (65537 - (m + 1) + 1 + 1) = 65537 - m + 1 := by
      unfold u32
      omega
    have hlast : u32 (65535 * (65537 - (m + 1)) + 65535) = 65535 * (65537 - m) := by
      unfold u32
      omega
    have hn : u32 (65537 - (m + 1) + 1) = 65537 - m := by
      unfold u32
      omega
    have hnext : (beforeNode (65537 - (m + 1))).next manyCores.coresPerNode
        manyCores.coreRepCount = some { beforeNode (65537 - (m + 1)) with
          lastBit := 65535 * (65537 - m), count := 65537 - m + 1 } := by
      have hcores : manyCores.coresPerNode = [65535, 0] := rfl
      have hreps : manyCores.coreRepCount = [65538, 0] := rfl
      simp only [Walk.next, beforeNode, hcores, hreps, List.getElem?_cons_zero,
        Option.bind_eq_bind, Option.bind_some, hcount, hlast]
      rw [if_neg (by omega)]
    have hfuel : m + 1 + fuel = m + fuel + 1 := by omega
    have hleft : (beforeNode (65537 - (m + 1))).i < (lastNodeJob 65537 65535).nhosts :=
      Nat.one_pos
    rw [hfuel, addLoop, if_pos hleft, hnext]
    simp only [Option.bind_eq_bind, Option.bind_some]
    have hother : ¬ decide ((beforeNode (65537 - (m + 1))).n = 65537) = true := by
      rw [decide_eq_true_eq]
      show ¬ 65537 - (m + 1) = 65537
      omega
    have hpassed : Walk.passed { beforeNode (65537 - (m + 1)) with
        lastBit := 65535 * (65537 - m), count := 65537 - m + 1 } = beforeNode (65537 - m) := by
      simp only [Walk.passed, beforeNode, hn]
    rw [bitTest_lastNode, if_neg hother, hpassed]
    exact ih (by omega)

/-- At the last node the end of its cores wraps to a place before their start, so none is set. -/
theorem addLoop_last {core full : Bitstr} :
    addLoop (lastNodeJob 65537 65535) core manyCores.coresPerNode manyCores.coreRepCount
      1 (beforeNode 65537) full = some full := by
  have hnext : (beforeNode 65537).next manyCores.coresPerNode manyCores.coreRepCount =
      some ⟨0, 65537, 1, 65534, 4294967295, 0, 1⟩ := by decide
  rw [addLoop, if_pos (by decide), hnext]
  simp only [Option.bind_eq_bind, Option.bind_some]
  rw [bitTest_lastNode, if_pos (by decide)]
  exact if_neg (by decide)

/-- The size of the row wraps too: it has 65534 cores. -/
theorem openRow_manyCores : openRow none manyCores.coresPerNode manyCores.coreRepCount =
    some (bitAlloc 65534) := by
  have hsize : rowSize manyCores.coresPerNode manyCores.coreRepCount = 65534 := by decide
  simp only [openRow, hsize]
  exact if_pos (by decide)

theorem addLoop_lastNode {core full : Bitstr} :
    addLoop (lastNodeJob 65537 65535) core manyCores.coresPerNode manyCores.coreRepCount
      (65537 + 1) .start full = some full := by
  have hstart : beforeNode (65537 - 65537) = Walk.start := by decide
  rw [← hstart]
  exact (addLoop_beforeLast (Nat.le_refl _)).trans addLoop_last

theorem addSelectJobToRow_lastNode :
    addSelectJobToRow (lastNodeJob 65537 65535) none manyCores.coresPerNode
      manyCores.coreRepCount (65537 + 1) = some (some (bitAlloc 65534)) := by
  rw [addSelectJobToRow]
  show (openRow none manyCores.coresPerNode manyCores.coreRepCount).bind _ = _
  rw [openRow_manyCores, Option.bind_some, addLoop_lastNode, Option.map_some]

theorem placeJob_lastNode : placeJob manyCores none (lastNodeJob 65537 65535) =
    some (some (bitAlloc 65534)) := by
  have hlen : (expand manyCores.runs).length = 65537 + 1 := by
    rw [expand_manyCores, List.length_replicate]
  rw [placeJob, canSelectJobCoresFit, if_pos rfl, hlen]
  exact addSelectJobToRow_lastNode

/-- In a system of 2³² cores or more the counters wrap: the core of the job is not set. -/
theorem row_count_wraps : ¬ ∀ (t : CoreTable) (jobs : List JobCores) (row row' : Option Bitstr),
    RowFits t row → rowCount row = 0 → (∀ job ∈ jobs, Shaped t job) →
    jobs.foldlM (placeJob t) row = some row' → rowCount row' = (jobs.map jobCount).sum := by
  intro h
  have hfits : RowFits manyCores none := fun b hb => by cases hb
  have hrun : [lastNodeJob 65537 65535].foldlM (placeJob manyCores) none =
      some (some (bitAlloc 65534)) := by
    rw [List.foldlM_cons, placeJob_lastNode]
    rfl
  have hsum := h manyCores [lastNodeJob 65537 65535] none (some (bitAlloc 65534)) hfits rfl
    (List.forall_mem_singleton.mpr shaped_lastNode) hrun
  rw [rowCount_bitAlloc, List.map_singleton, List.sum_singleton,
    jobCount_lastNode (Nat.succ_pos _)] at hsum
  exact Nat.zero_ne_one hsum

end Slurm.JobRes
