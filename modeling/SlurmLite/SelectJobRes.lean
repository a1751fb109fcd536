import SlurmLite.Base.CLib

/-!
# CPU counts of a job's nodes

`build_select_job_res_cpu_array` and `build_select_job_res_cpus_array` of
`select_job_res.c`: the per-node CPU counts of a job as runs of equal counts,
and back.

* **Compression**: `cpuArray_spec`: for counts that do not begin with zero the
  runs decompress to the counts, and neighbouring runs differ.
* **Decompression**: `cpus_zero`: the vector it builds is read from itself, so
  it stays zero.
* **Round trip**: `cpus_roundTrip_iff`.
-/

namespace Slurm.JobRes

open Base.CLib

/-- The part of `struct select_job_res` the two functions use. A pointer that
is `NULL` is `none`; the counts are 16 bits wide. -/
structure SelectJobRes where
  nhosts : Nat
  cpus : Option (List (Fin 65536))
  cpuArrayCnt : Nat
  cpuArrayValue : Option (List (Fin 65536))
  cpuArrayReps : Option (List Nat)
deriving DecidableEq

/-- `xmalloc` of an array: `n` zeros. -/
def zeros (n : Nat) : List (Fin 65536) := List.replicate n 0

/-! ## Compressing -/

/-- The variables of the first loop. -/
structure Runs where
  cpuCount : Int
  lastCpuCnt : Fin 65536
  cnt : Nat
  value : List (Fin 65536)
  reps : List Nat
deriving DecidableEq

/-- One node: a new run, or one more in the last run. `none` is an access
outside the arrays. -/
def Runs.add (r : Runs) (cpus : Fin 65536) : Option Runs :=
  if cpus ≠ r.lastCpuCnt then
    if r.cnt < r.value.length then
      some ⟨int32 (r.cpuCount + cpus), cpus, r.cnt + 1, r.value.set r.cnt cpus, r.reps.set r.cnt 1⟩
    else none
  else if r.cnt = 0 then none
  else
    some { r with
      cpuCount := int32 (r.cpuCount + r.lastCpuCnt)
      reps := r.reps.modify (r.cnt - 1) fun n => uint32 (n + 1) }

/-- `build_select_job_res_cpu_array`: the total and the structure. -/
def buildSelectJobResCpuArray (s : SelectJobRes) : Option (Int × SelectJobRes) :=
  if s.nhosts = 0 then some (0, s)
  else
    match s.cpus with
    | none => some (-1, s)
    | some cpus =>
      if cpus.length < s.nhosts then none
      else
        let start : Runs := ⟨0, 0, 0, zeros s.nhosts, List.replicate s.nhosts 0⟩
        ((cpus.take s.nhosts).foldlM Runs.add start).map fun r =>
          (r.cpuCount, { s with
            cpuArrayCnt := r.cnt, cpuArrayValue := some r.value, cpuArrayReps := some r.reps })

/-! ## Decompressing -/

/-- The variables of the second loop; `tooLong` is the error return inside it. -/
structure Filling where
  cpuCount : Int
  cpuInx : Nat
  cpus : List (Fin 65536)
  tooLong : Bool
deriving DecidableEq

/-- `n` more nodes of run `i`. The count comes from `cpus[i]`. -/
def Filling.fill (nhosts i : Nat) : Nat → Filling → Option Filling
  | 0, f => some f
  | n + 1, f =>
    if nhosts ≤ f.cpuInx then some { f with tooLong := true }
    else
      match f.cpus[i]? with
      | none => none
      | some cpus =>
        fill nhosts i n { f with
          cpuCount := int32 (f.cpuCount + cpus)
          cpuInx := f.cpuInx + 1
          cpus := f.cpus.set f.cpuInx cpus }

/-- One run. -/
def Filling.run (nhosts : Nat) (reps : List Nat) (f : Filling) (i : Nat) : Option Filling :=
  if f.tooLong then some f
  else
    match reps[i]? with
    | none => none
    | some n => fill nhosts i n f

/-- `build_select_job_res_cpus_array`: the total and the structure. -/
def buildSelectJobResCpusArray (s : SelectJobRes) : Option (Int × SelectJobRes) :=
  if s.nhosts = 0 then some (0, s)
  else if s.cpuArrayCnt = 0 then some (-1, s)
  else
    match s.cpuArrayValue, s.cpuArrayReps with
    | none, _ => some (-1, s)
    | some _, none => some (-1, s)
    | some _, some reps =>
      ((List.range s.cpuArrayCnt).foldlM (Filling.run s.nhosts reps)
        ⟨0, 0, zeros s.nhosts, false⟩).map fun f =>
          (if f.tooLong then -1 else if f.cpuInx < s.nhosts then -1 else f.cpuCount,
            { s with cpus := some f.cpus })

/-! ## What the runs stand for -/

/-- The counts of the runs in use. -/
def SelectJobRes.values (s : SelectJobRes) : List (Fin 65536) :=
  (s.cpuArrayValue.getD []).take s.cpuArrayCnt

/-- The vector the runs in use stand for. -/
def SelectJobRes.expanded (s : SelectJobRes) : List (Fin 65536) :=
  (List.zipWith List.replicate ((s.cpuArrayReps.getD []).take s.cpuArrayCnt) s.values).flatten

/-- No two neighbours are equal. -/
def Compressed (values : List (Fin 65536)) : Prop := values.IsChain (· ≠ ·)

/-- The CPUs of all nodes. -/
def totalCpus (cpus : List (Fin 65536)) : Int := (cpus.map fun c : Fin 65536 => (c.val : Int)).sum

/-- The runs after the nodes of `done`, for arrays of `n` entries. -/
structure RunsOf (n : Nat) (done : List (Fin 65536)) (r : Runs) : Prop where
  lengths : r.value.length = n ∧ r.reps.length = n
  cnt : 0 < r.cnt ∧ r.cnt ≤ done.length
  last : (r.value.take r.cnt).getLast? = some r.lastCpuCnt
  expanded : (List.zipWith List.replicate (r.reps.take r.cnt) (r.value.take r.cnt)).flatten = done
  compressed : Compressed (r.value.take r.cnt)
  total : r.cpuCount = int32 (totalCpus done)

theorem take_set_succ {α : Type} {l : List α} {k : Nat} (x : α) (h : k < l.length) :
    (l.set k x).take (k + 1) = l.take k ++ [x] := by
  rw [List.take_add_one, List.take_set_of_le (Nat.le_refl k), List.getElem?_set_self h]
  rfl

theorem take_modify_succ {α : Type} {l : List α} {k : Nat} (f : α → α) (h : k < l.length) :
    (l.modify k f).take (k + 1) = l.take k ++ [f l[k]] := by
  rw [List.take_add_one, List.getElem?_modify_eq, List.getElem?_eq_getElem h]
  have htake : (l.modify k f).take k = l.take k := by
    apply List.ext_getElem?
    intro i
    rw [List.getElem?_take, List.getElem?_take]
    split
    · simp [show k ≠ i by omega]
    · rfl
  rw [htake]
  rfl

theorem RunsOf.add {n : Nat} {done : List (Fin 65536)} {r : Runs} {cpus : Fin 65536}
    (h : RunsOf n done r) (hn : done.length < n) (hsmall : done.length < 4294967295) :
    ∃ r', r.add cpus = some r' ∧ RunsOf n (done ++ [cpus]) r' := by
  obtain ⟨⟨hvalue, hreps⟩, ⟨hpos, hle⟩, hlast, hexp, hcomp, htotal⟩ := h
  have hsum : totalCpus (done ++ [cpus]) = totalCpus done + cpus.val := by
    simp [totalCpus]
  have hlens : (r.reps.take r.cnt).length = (r.value.take r.cnt).length := by
    rw [List.length_take, List.length_take, hvalue, hreps]
  by_cases hne : cpus ≠ r.lastCpuCnt
  · -- a new run
    refine ⟨⟨int32 (r.cpuCount + cpus), cpus, r.cnt + 1, r.value.set r.cnt cpus,
      r.reps.set r.cnt 1⟩, ?_, ?_⟩
    · rw [Runs.add, if_pos hne, if_pos (by omega)]
    · have hv := take_set_succ (l := r.value) cpus (by omega : r.cnt < r.value.length)
      have hr := take_set_succ (l := r.reps) 1 (by omega : r.cnt < r.reps.length)
      refine ⟨⟨by simpa using hvalue, by simpa using hreps⟩, ?_, ?_, ?_, ?_, ?_⟩
      · rw [List.length_append, List.length_singleton]
        exact ⟨Nat.succ_pos _, Nat.succ_le_succ hle⟩
      · rw [hv, List.getLast?_concat]
      · rw [hv, hr, List.zipWith_append hlens, List.flatten_append, hexp]
        rfl
      · rw [hv]
        refine List.isChain_append.mpr ⟨hcomp, List.isChain_singleton _, ?_⟩
        intro x hx y hy
        rw [hlast] at hx
        obtain rfl := Option.some.inj hx
        obtain rfl : cpus = y := Option.some.inj hy
        exact Ne.symm hne
      · rw [hsum, htotal, int32_int32_add]
  · -- one more node in the last run
    rw [not_not] at hne
    subst hne
    obtain ⟨k, hk⟩ : ∃ k, r.cnt = k + 1 := ⟨r.cnt - 1, by omega⟩
    have hkv : k < r.value.length := by omega
    have hkr : k < r.reps.length := by omega
    -- the last run is the one of `lastCpuCnt`
    have hvk : r.value[k] = r.lastCpuCnt := by
      rw [hk, List.take_add_one, List.getElem?_eq_getElem hkv] at hlast
      exact Option.some.inj (List.getLast?_concat.symm.trans hlast)
    have hvtake : r.value.take (k + 1) = r.value.take k ++ [r.lastCpuCnt] := by
      rw [List.take_add_one, List.getElem?_eq_getElem hkv, hvk]
      rfl
    have hrtake : r.reps.take (k + 1) = r.reps.take k ++ [r.reps[k]] := by
      rw [List.take_add_one, List.getElem?_eq_getElem hkr]
      rfl
    have hlens' : (r.reps.take k).length = (r.value.take k).length := by
      rw [List.length_take, List.length_take, hvalue, hreps]
    have hsplit : (List.zipWith List.replicate (r.reps.take k) (r.value.take k)).flatten ++
        List.replicate r.reps[k] r.lastCpuCnt = done := by
      rw [hk, hvtake, hrtake, List.zipWith_append hlens', List.flatten_append] at hexp
      simpa using hexp
    -- a run is no longer than all nodes, so its count does not wrap
    have hrep : r.reps[k] ≤ done.length := by
      rw [← hsplit, List.length_append, List.length_replicate]
      omega
    have hu : uint32 ((r.reps[k] : Int) + 1) = r.reps[k] + 1 := by
      unfold uint32
      omega
    refine ⟨{ r with
        cpuCount := int32 (r.cpuCount + r.lastCpuCnt)
        reps := r.reps.modify (r.cnt - 1) fun n => uint32 (n + 1) }, ?_, ?_⟩
    · rw [Runs.add, if_neg (not_not.mpr rfl), if_neg (by omega)]
    · have hmod := take_modify_succ (l := r.reps) (fun n => uint32 ((n : Int) + 1)) hkr
      refine ⟨⟨hvalue, by simpa using hreps⟩, ?_, hlast, ?_, hcomp, ?_⟩
      · rw [List.length_append, List.length_singleton]
        exact ⟨hpos, Nat.le_succ_of_le hle⟩
      · rw [hk, Nat.add_sub_cancel, hvtake, hmod, List.zipWith_append hlens', List.flatten_append,
          ← hsplit, List.append_assoc, hu]
        simp [List.replicate_succ']
      · rw [hsum, htotal, int32_int32_add]

theorem foldlM_runs {n : Nat} {done todo : List (Fin 65536)} {r : Runs} (h : RunsOf n done r)
    (hn : (done ++ todo).length ≤ n) (hsmall : n < 4294967296) :
    ∃ r', todo.foldlM Runs.add r = some r' ∧ RunsOf n (done ++ todo) r' := by
  induction todo generalizing done r with
  | nil => exact ⟨r, rfl, by rwa [List.append_nil]⟩
  | cons cpus todo ih =>
    rw [List.length_append, List.length_cons] at hn
    obtain ⟨r₁, hr₁, hruns⟩ := h.add (by omega : done.length < n) (by omega)
    have hlen : (done ++ [cpus] ++ todo).length ≤ n := by
      simp only [List.length_append, List.length_cons, List.length_nil]
      omega
    obtain ⟨r', hr', hall⟩ := ih hruns hlen
    refine ⟨r', ?_, by rwa [List.append_assoc] at hall⟩
    rw [List.foldlM_cons, hr₁]
    exact hr'

/-- Counts that do not begin with zero are compressed: the runs in use stand
for them, neighbouring runs differ, and the total is theirs. -/
theorem cpuArray_spec {s : SelectJobRes} {cpu : Fin 65536} {rest : List (Fin 65536)}
    (hcpus : s.cpus = some (cpu :: rest)) (hn : s.nhosts = (cpu :: rest).length)
    (hsmall : s.nhosts < 4294967296) (hcpu : cpu ≠ 0) :
    ∃ s', buildSelectJobResCpuArray s =
        some (int32 (totalCpus (cpu :: rest)), s') ∧
      s'.nhosts = s.nhosts ∧ s'.cpus = s.cpus ∧ s'.expanded = cpu :: rest ∧
      Compressed s'.values := by
  have hpos : 0 < s.nhosts := by rw [hn]; exact Nat.succ_pos _
  have hfirst : RunsOf s.nhosts [cpu] ⟨int32 (0 + cpu), cpu, 1, (zeros s.nhosts).set 0 cpu,
      (List.replicate s.nhosts 0).set 0 1⟩ := by
    have hv := take_set_succ (l := zeros s.nhosts) cpu (k := 0) (by simpa [zeros] using hpos)
    have hr := take_set_succ (l := List.replicate s.nhosts 0) 1 (k := 0) (by simpa using hpos)
    refine ⟨⟨by simp [zeros], by simp⟩, ⟨Nat.one_pos, Nat.le_refl 1⟩, ?_, ?_, ?_, ?_⟩
    · rw [hv]
      rfl
    · rw [hv, hr]
      rfl
    · rw [hv]
      exact List.isChain_singleton _
    · simp [totalCpus]
  obtain ⟨r, hr, hruns⟩ := @foldlM_runs _ _ rest _ hfirst (by rw [hn]; simp) hsmall
  refine ⟨⟨s.nhosts, s.cpus, r.cnt, some r.value, some r.reps⟩, ?_, rfl, rfl, hruns.expanded,
    hruns.compressed⟩
  rw [buildSelectJobResCpuArray, if_neg (by omega), hcpus]
  simp only
  rw [if_neg (by omega), List.take_of_length_le (by omega), List.foldlM_cons]
  have hadd : (⟨0, 0, 0, zeros s.nhosts, List.replicate s.nhosts 0⟩ : Runs).add cpu =
      some ⟨int32 (0 + cpu), cpu, 1, (zeros s.nhosts).set 0 cpu,
        (List.replicate s.nhosts 0).set 0 1⟩ := by
    rw [Runs.add, if_pos hcpu, if_pos (by simpa [zeros] using hpos)]
  rw [hadd, Option.bind_eq_bind, Option.bind_some, hr, Option.map_some, hruns.total]
  rfl

/-- Counts that begin with zero are not: the first node has no run to be added
to. -/
theorem cpuArray_of_zero {s : SelectJobRes} {rest : List (Fin 65536)}
    (hcpus : s.cpus = some (0 :: rest)) (hn : s.nhosts = (0 :: rest).length) :
    buildSelectJobResCpuArray s = none := by
  have hpos : s.nhosts ≠ 0 := by rw [hn]; exact Nat.succ_ne_zero _
  rw [buildSelectJobResCpuArray, if_neg hpos, hcpus]
  simp only
  rw [if_neg (by omega), List.take_of_length_le (by omega), List.foldlM_cons, Runs.add,
    if_neg (by simp), if_pos rfl]
  rfl

/-! ## The vector built from itself -/

theorem fill_zero {nhosts i n : Nat} {f f' : Filling} (hf : ∀ c ∈ f.cpus, c = 0)
    (h : Filling.fill nhosts i n f = some f') : ∀ c ∈ f'.cpus, c = 0 := by
  induction n generalizing f with
  | zero =>
    obtain rfl := Option.some.inj h
    exact hf
  | succ n ih =>
    unfold Filling.fill at h
    split at h
    · obtain rfl := Option.some.inj h
      exact hf
    · split at h
      · cases h
      · rename_i cpus hget
        refine ih (fun c hc => ?_) h
        -- the count written is one of the vector's own
        obtain hc | rfl := List.mem_or_eq_of_mem_set hc
        · exact hf c hc
        · exact hf _ (List.mem_of_getElem? hget)

theorem run_zero {nhosts i : Nat} {reps : List Nat} {f f' : Filling} (hf : ∀ c ∈ f.cpus, c = 0)
    (h : f.run nhosts reps i = some f') : ∀ c ∈ f'.cpus, c = 0 := by
  unfold Filling.run at h
  split at h
  · obtain rfl := Option.some.inj h
    exact hf
  · split at h
    · cases h
    · exact fill_zero hf h

theorem runs_zero {nhosts : Nat} {reps is : List Nat} {f f' : Filling} (hf : ∀ c ∈ f.cpus, c = 0)
    (h : is.foldlM (Filling.run nhosts reps) f = some f') : ∀ c ∈ f'.cpus, c = 0 := by
  induction is generalizing f with
  | nil =>
    obtain rfl := Option.some.inj h
    exact hf
  | cons i is ih =>
    rw [List.foldlM_cons] at h
    obtain ⟨f₁, h₁, hrest⟩ := Option.bind_eq_some_iff.mp h
    exact ih (run_zero hf h₁) hrest

/-- Whatever the runs are, the vector built from them is zero. -/
theorem cpus_zero {s s' : SelectJobRes} {count : Int} {cpus : List (Fin 65536)}
    (hn : s.nhosts ≠ 0) (hcnt : s.cpuArrayCnt ≠ 0)
    (hset : s.cpuArrayValue.isSome ∧ s.cpuArrayReps.isSome)
    (h : buildSelectJobResCpusArray s = some (count, s')) (hcpus : s'.cpus = some cpus) :
    ∀ c ∈ cpus, c = 0 := by
  obtain ⟨value, hvalue⟩ := Option.isSome_iff_exists.mp hset.1
  obtain ⟨reps, hreps⟩ := Option.isSome_iff_exists.mp hset.2
  rw [buildSelectJobResCpusArray, if_neg hn, if_neg hcnt, hvalue, hreps] at h
  obtain ⟨f, hf, heq⟩ := Option.map_eq_some_iff.mp h
  obtain ⟨-, rfl⟩ := Prod.mk.inj heq
  obtain rfl := Option.some.inj hcpus
  exact runs_zero (fun c hc => List.eq_of_mem_replicate hc) hf

/-! ## Round trip -/

/-- Compressing and decompressing a structure's counts gives the counts back,
with runs that differ from their neighbours and equal totals. -/
def RoundTrips (s : SelectJobRes) (cpus : List (Fin 65536)) : Prop :=
  ∃ count s₁ s₂, buildSelectJobResCpuArray s = some (count, s₁) ∧
    buildSelectJobResCpusArray s₁ = some (count, s₂) ∧ s₂.cpus = some cpus ∧ Compressed s₁.values

/-- Only the empty vector is given back: for it neither function does anything,
so the runs are those the structure had. -/
theorem cpus_roundTrip_iff (s : SelectJobRes) (cpus : List (Fin 65536))
    (hcpus : s.cpus = some cpus) (hn : s.nhosts = cpus.length) (hsmall : s.nhosts < 4294967296) :
    RoundTrips s cpus ↔ cpus = [] ∧ Compressed s.values := by
  cases cpus with
  | nil =>
    have hzero : s.nhosts = 0 := hn
    have h1 : buildSelectJobResCpuArray s = some (0, s) := by
      rw [buildSelectJobResCpuArray, if_pos hzero]
    have h2 : buildSelectJobResCpusArray s = some (0, s) := by
      rw [buildSelectJobResCpusArray, if_pos hzero]
    constructor
    · rintro ⟨count, s₁, s₂, hone, -, -, hcomp⟩
      obtain ⟨-, rfl⟩ := Prod.mk.inj (Option.some.inj (h1.symm.trans hone))
      exact ⟨rfl, hcomp⟩
    · exact fun h => ⟨0, s, s, h1, h2, hcpus, h.2⟩
  | cons cpu rest =>
    constructor
    · rintro ⟨count, s₁, s₂, hone, htwo, hback, -⟩
      by_cases hcpu : cpu = 0
      · subst hcpu
        rw [cpuArray_of_zero hcpus hn] at hone
        cases hone
      · obtain ⟨s', hs', hnhosts, -, hexp, -⟩ := cpuArray_spec hcpus hn hsmall hcpu
        obtain ⟨-, rfl⟩ := Prod.mk.inj (Option.some.inj (hs'.symm.trans hone))
        have hcnt : s'.cpuArrayCnt ≠ 0 := by
          intro hzero
          rw [SelectJobRes.expanded, hzero] at hexp
          cases hexp
        have hset : s'.cpuArrayValue.isSome ∧ s'.cpuArrayReps.isSome := by
          constructor
          · cases hv : s'.cpuArrayValue with
            | some v => rfl
            | none =>
              rw [SelectJobRes.expanded, SelectJobRes.values, hv] at hexp
              simp at hexp
          · cases hr : s'.cpuArrayReps with
            | some v => rfl
            | none =>
              rw [SelectJobRes.expanded, hr] at hexp
              simp at hexp
        have hnpos : s'.nhosts ≠ 0 := by
          rw [hnhosts, hn]
          exact Nat.succ_ne_zero _
        exact absurd (cpus_zero hnpos hcnt hset htwo hback cpu List.mem_cons_self) hcpu
    · exact fun h => absurd h.1 (List.cons_ne_nil _ _)

/-- Two nodes with two CPUs each come back as two nodes without any. -/
theorem two_nodes_lost :
    ∃ s₁ s₂, buildSelectJobResCpuArray ⟨2, some [2, 2], 0, none, none⟩ = some (4, s₁) ∧
      buildSelectJobResCpusArray s₁ = some (0, s₂) ∧ s₂.cpus = some [0, 0] ∧
      ¬ RoundTrips ⟨2, some [2, 2], 0, none, none⟩ [2, 2] := by
  have h1 : buildSelectJobResCpuArray ⟨2, some [2, 2], 0, none, none⟩ =
      some (4, ⟨2, some [2, 2], 1, some [2, 0], some [2, 0]⟩) := by decide
  have h2 : buildSelectJobResCpusArray ⟨2, some [2, 2], 1, some [2, 0], some [2, 0]⟩ =
      some (0, ⟨2, some [0, 0], 1, some [2, 0], some [2, 0]⟩) := by decide
  refine ⟨_, _, h1, h2, rfl, ?_⟩
  rintro ⟨count, s₁, s₂, hone, htwo, -, -⟩
  obtain ⟨rfl, rfl⟩ := Prod.mk.inj (Option.some.inj (h1.symm.trans hone))
  obtain ⟨habs, -⟩ := Prod.mk.inj (Option.some.inj (h2.symm.trans htwo))
  exact absurd habs (by decide)

/-- No nodes. -/
theorem no_nodes_roundTrip : RoundTrips ⟨0, some [], 0, none, none⟩ [] :=
  (cpus_roundTrip_iff ⟨0, some [], 0, none, none⟩ [] rfl rfl (by decide)).mpr
    ⟨rfl, List.isChain_nil⟩

end Slurm.JobRes
