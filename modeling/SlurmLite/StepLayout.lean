import SlurmLite.Pack

/-!
# Step layout messages

`slurm_step_layout_t` as it is packed for other daemons and unpacked by them. The
loop that packs the nodes counts them with a `uint16_t`, so it is run with a bound
on its rounds and may never end.

* **Packing** (`packNodes_eq`, `packNodes_runs_on`): the nodes that are packed, and
  the node counts for which there is no last one.
* **Unpacking** (`unpackSlurmStepLayout_decodes`, `unpackSlurmStepLayout_spends`): what
  is read from a packed layout, and that any way to read a layout takes its bytes.
* **Round trip** (`roundTrips_iff`): when a layout comes back.
-/

namespace Slurm.Layout

open Base.Bytes Base.CLib Slurm.Pack

/-- `slurm_step_layout_t`, the fields that are packed. -/
structure StepLayout where
  nodeList : Option CString
  nodeCnt : UInt32
  taskCnt : UInt32
  taskDist : UInt16
  tasks : List UInt16
  tids : List (List UInt32)
deriving DecidableEq

/-- The arrays have an entry for each node, `tids[i]` one of `tasks[i]` ids. -/
structure StepLayout.Valid (l : StepLayout) : Prop where
  nodes : l.tids.length = l.nodeCnt.toNat
  tasks : l.tasks.map UInt16.toNat = l.tids.map List.length

/-- The loop of `pack_slurm_step_layout` from node `i` on. The outer `none` is a loop that
has not ended after `fuel` rounds, the inner one undefined behaviour. -/
def packNodes (l : StepLayout) : Nat → UInt16 → Buf → Option (Option Buf)
  | 0, _, _ => none
  | fuel + 1, i, b =>
    if i.toNat < l.nodeCnt.toNat then
      match l.tids[i.toNat]?, l.tasks[i.toNat]? with
      | some tids, some tasks =>
        match pack32Array (tids.take tasks.toNat) b with
        | some b => packNodes l fuel (i + 1) b
        | none => some none
      | _, _ => some none
    else some (some b)

/-- What `pack_slurm_step_layout` packs before the nodes. -/
def header (l : StepLayout) : List Item :=
  [.u16 1, .str l.nodeList, .u32 l.nodeCnt, .u32 l.taskCnt, .u16 l.taskDist]

/-- `pack_slurm_step_layout`. -/
def packSlurmStepLayout (fuel : Nat) (stepLayout : Option StepLayout) (b : Buf) :
    Option (Option Buf) :=
  match stepLayout with
  | none => some (pack16 0 b)
  | some l =>
    match packItems (header l) b with
    | some b => packNodes l fuel 0 b
    | none => some none

/-- `unpack_slurm_step_layout`; no layout is the pointer left as it was. -/
def unpackSlurmStepLayout : Unpacker (Option StepLayout) := do
  let flag ← unpack16
  if flag = 0 then pure none
  else
    let nodeList ← unpackstr
    let nodeCnt ← unpack32
    let taskCnt ← unpack32
    let taskDist ← unpack16
    let tids ← unpackMany unpack32Array nodeCnt.toNat
    pure (some { nodeList, nodeCnt, taskCnt, taskDist
                 tasks := tids.map fun ids => UInt16.ofNat ids.length, tids })

/-! ## Packing -/

/-- What is packed for a layout. -/
def items (l : StepLayout) : List Item := header l ++ l.tids.map Item.u32Array

theorem StepLayout.Valid.take_eq {l : StepLayout} (h : l.Valid) {i : Nat} {ids : List UInt32}
    (hi : l.tids[i]? = some ids) :
    ∃ tasks, l.tasks[i]? = some tasks ∧ ids.take tasks.toNat = ids := by
  have hlen : (l.tasks.map UInt16.toNat)[i]? = some ids.length := by
    rw [h.tasks, List.getElem?_map, hi, Option.map_some]
  rw [List.getElem?_map, Option.map_eq_some_iff] at hlen
  obtain ⟨tasks, htasks, hcount⟩ := hlen
  exact ⟨tasks, htasks, by rw [hcount, List.take_length]⟩

theorem packNodes_eq {l : StepLayout} (h : l.Valid) (hcnt : l.nodeCnt.toNat ≤ 65535)
    {fuel : Nat} {i : UInt16} {b : Buf} (hi : i.toNat ≤ l.nodeCnt.toNat)
    (hfuel : l.nodeCnt.toNat - i.toNat < fuel) :
    packNodes l fuel i b =
      some (packItems ((l.tids.drop i.toNat).map Item.u32Array) b) := by
  induction fuel generalizing i b with
  | zero => exact absurd hfuel (Nat.not_lt_zero _)
  | succ fuel ih =>
    rw [packNodes]
    by_cases hlt : i.toNat < l.nodeCnt.toNat
    · rw [if_pos hlt]
      have hin : i.toNat < l.tids.length := by rwa [h.nodes]
      have hget := List.getElem?_eq_getElem hin
      obtain ⟨tasks, htasks, htake⟩ := h.take_eq hget
      have hnext : (i + 1).toNat = i.toNat + 1 := by
        rw [UInt16.toNat_add]
        exact Nat.mod_eq_of_lt (Nat.lt_succ_of_le (Nat.le_trans hlt hcnt))
      have hdrop : l.tids.drop i.toNat = l.tids[i.toNat] :: l.tids.drop (i.toNat + 1) :=
        List.drop_eq_getElem_cons hin
      rw [hget, htasks, hdrop]
      simp only [htake]
      show _ = some ((pack32Array _ b).bind _)
      cases hpack : pack32Array l.tids[i.toNat] b with
      | none => rfl
      | some b1 =>
        simp only [Option.bind_some]
        rw [ih (by omega) (by omega), hnext]
        rfl
    · rw [if_neg hlt, List.drop_eq_nil_of_le (by rw [h.nodes]; omega)]
      rfl

theorem packNodes_mono {l : StepLayout} {fuel fuel' : Nat} (hle : fuel ≤ fuel') {i : UInt16}
    {b : Buf} {r : Option Buf} (h : packNodes l fuel i b = some r) :
    packNodes l fuel' i b = some r := by
  induction fuel generalizing fuel' i b with
  | zero => cases h
  | succ fuel ih =>
    obtain ⟨fuel', rfl⟩ : ∃ k, fuel' = k + 1 := ⟨fuel' - 1, by omega⟩
    rw [packNodes] at h ⊢
    split at h
    · rename_i hlt
      rw [if_pos hlt]
      split at h
      · split at h
        · exact ih (by omega) h
        · exact h
      · exact h
    · rename_i hend
      rw [if_neg hend]
      exact h

/-- With more than 65535 nodes the index wraps before it passes the last one. -/
theorem packNodes_runs_on {l : StepLayout} (hcnt : 65536 ≤ l.nodeCnt.toNat) {fuel : Nat}
    {i : UInt16} {b b' : Buf} : packNodes l fuel i b ≠ some (some b') := by
  induction fuel generalizing i b with
  | zero => exact nofun
  | succ fuel ih =>
    have hlt : i.toNat < l.nodeCnt.toNat := Nat.lt_of_lt_of_le i.toNat_lt hcnt
    rw [packNodes, if_pos hlt]
    split
    · split
      · exact ih
      · exact nofun
    · exact nofun

theorem packSlurmStepLayout_runs_on {l : StepLayout} (hcnt : 65536 ≤ l.nodeCnt.toNat)
    {fuel : Nat} {b b' : Buf} : packSlurmStepLayout fuel (some l) b ≠ some (some b') := by
  rw [packSlurmStepLayout]
  split
  · exact packNodes_runs_on hcnt
  · exact nofun

theorem packSlurmStepLayout_eq {l : StepLayout} (h : l.Valid) (hcnt : l.nodeCnt.toNat ≤ 65535)
    {fuel : Nat} (hfuel : l.nodeCnt.toNat < fuel) {b : Buf} :
    packSlurmStepLayout fuel (some l) b = some (packItems (items l) b) := by
  have hsplit : packItems (items l) b = (packItems (header l) b).bind
      (packItems (l.tids.map Item.u32Array)) := by
    simp only [packItems, packAll, items, List.map_append, List.foldlM_append]
    rfl
  rw [packSlurmStepLayout, hsplit]
  cases packItems (header l) b with
  | none => rfl
  | some b1 =>
    simp only [Option.bind_some]
    rw [packNodes_eq h hcnt (Nat.zero_le _) (by simpa using hfuel)]
    rfl

/-- A loop that ended packed the layout. -/
theorem packSlurmStepLayout_packItems {l : StepLayout} (h : l.Valid)
    (hcnt : l.nodeCnt.toNat ≤ 65535) {fuel : Nat} {b b' : Buf}
    (hpack : packSlurmStepLayout fuel (some l) b = some (some b')) :
    packItems (items l) b = some b' := by
  have hmore : packSlurmStepLayout (max fuel (l.nodeCnt.toNat + 1)) (some l) b =
      some (some b') := by
    rw [packSlurmStepLayout] at hpack ⊢
    cases hheader : packItems (header l) b with
    | none =>
      rw [hheader] at hpack
      cases hpack
    | some b1 =>
      rw [hheader] at hpack
      exact packNodes_mono (Nat.le_max_left _ _) hpack
  rw [packSlurmStepLayout_eq h hcnt (Nat.lt_of_succ_le (Nat.le_max_right _ _))] at hmore
  exact Option.some.inj hmore

/-! ## Unpacking -/

theorem unpackMany_decodes (tids : List (List UInt32)) :
    Decodes (unpackMany unpack32Array tids.length) (tids.map Item.u32Array) tids := by
  induction tids with
  | nil => exact Decodes.pure []
  | cons ids tids ih => exact Decodes.cons (fun hfit => Reads.array32 hfit) ih.map

theorem unpackSlurmStepLayout_decodes {l : StepLayout} (h : l.Valid) :
    Decodes unpackSlurmStepLayout (items l) (some l) := by
  have htasks : (l.tids.map fun ids => UInt16.ofNat ids.length) = l.tasks := by
    have hmap := congrArg (List.map UInt16.ofNat) h.tasks
    rw [List.map_map, List.map_map] at hmap
    refine hmap.symm.trans ((List.map_congr_left fun t _ => ?_).trans (List.map_id _))
    exact UInt16.ofNat_toNat
  have htids : Decodes (unpackMany unpack32Array l.nodeCnt.toNat)
      (l.tids.map Item.u32Array) l.tids := by
    rw [← h.nodes]
    exact unpackMany_decodes l.tids
  refine Decodes.u16 ?_
  rw [if_neg (by decide)]
  refine Decodes.str (Decodes.u32 (Decodes.u32 (Decodes.u16 ?_)))
  have hread := @Decodes.map _ (Option StepLayout) _ (fun tids => some
    { nodeList := l.nodeList, nodeCnt := l.nodeCnt, taskCnt := l.taskCnt, taskDist := l.taskDist
      tasks := tids.map fun ids => UInt16.ofNat ids.length, tids }) _ _ htids
  rw [htasks] at hread
  exact hread

theorem bind_eq_some {α β : Type} {u : Unpacker α} {f : α → Unpacker β} {b b' : Buf} {y : β}
    (h : (u >>= f) b = (some y, b')) :
    ∃ x b1, u b = (some x, b1) ∧ f x b1 = (some y, b') := by
  cases hu : u b with
  | mk x b1 =>
    simp only [bind, hu] at h
    cases x with
    | none => cases h
    | some x => exact ⟨x, b1, rfl, h⟩

theorem pure_eq_some {α : Type} {x y : α} {b b' : Buf}
    (h : (pure x : Unpacker α) b = (some y, b')) : x = y ∧ b = b' := by
  obtain ⟨hx, hb⟩ := Prod.mk.inj h
  exact ⟨Option.some.inj hx, hb⟩

theorem unpackBytes_spends {n : Nat} {b b' : Buf} {bs : List UInt8}
    (h : unpackBytes n b = (some bs, b')) :
    b'.processed = b.processed + n ∧ bs.length = n := by
  unfold unpackBytes at h
  split at h
  · rename_i hle
    obtain ⟨hbs, hb⟩ := Prod.mk.inj h
    obtain rfl := Option.some.inj hbs
    obtain rfl := hb
    refine ⟨rfl, ?_⟩
    rw [List.length_take, Buf.length_rest]
    exact Nat.min_eq_left hle
  · cases (Prod.mk.inj h).1

/-- A number takes its bytes. -/
theorem unpackNum_spends {α : Type} {n : Nat} {f : List UInt8 → α} {b b' : Buf} {x : α}
    (h : (do let bs ← unpackBytes n; pure (f bs) : Unpacker α) b = (some x, b')) :
    b'.processed = b.processed + n := by
  obtain ⟨bs, b1, hread, hpure⟩ := bind_eq_some h
  obtain ⟨-, rfl⟩ := pure_eq_some hpure
  exact (unpackBytes_spends hread).1

/-- A string takes its bytes, and its NUL unless it is not there. -/
theorem unpackstr_spends {b b' : Buf} {s : Option CString} (h : unpackstr b = (some s, b')) :
    b.processed + 4 + (strData s).length ≤ b'.processed + 1 := by
  obtain ⟨valp, b1, hmem, hpure⟩ := bind_eq_some h
  obtain ⟨rfl, rfl⟩ := pure_eq_some hpure
  obtain ⟨size, b2, hsize, hrest⟩ := bind_eq_some hmem
  have hp := unpackNum_spends hsize
  split at hrest
  · obtain ⟨bs, b3, hread, hpure'⟩ := bind_eq_some hrest
    obtain ⟨rfl, rfl⟩ := pure_eq_some hpure'
    obtain ⟨hproc, hlen⟩ := unpackBytes_spends hread
    have hle := CString.length_ofBytes_le bs
    rw [Option.map_some, strData, CString.length_terminated]
    omega
  · obtain ⟨rfl, rfl⟩ := pure_eq_some hrest
    rw [Option.map_none, strData, List.length_nil]
    omega

theorem unpackMany_spends {α : Type} {u : Unpacker α} {n : α → Nat}
    (hu : ∀ {b b' x}, u b = (some x, b') → b.processed + n x ≤ b'.processed) {k : Nat}
    {b b' : Buf} {xs : List α} (h : unpackMany u k b = (some xs, b')) :
    xs.length = k ∧ b.processed + (xs.map n).sum ≤ b'.processed := by
  induction k generalizing b xs with
  | zero =>
    obtain ⟨rfl, rfl⟩ := pure_eq_some h
    exact ⟨rfl, Nat.le_refl _⟩
  | succ k ih =>
    obtain ⟨x, b1, hx, hrest⟩ := bind_eq_some h
    obtain ⟨ys, b2, hys, hpure⟩ := bind_eq_some hrest
    obtain ⟨rfl, rfl⟩ := pure_eq_some hpure
    obtain ⟨hlen, hsum⟩ := ih hys
    have hfirst := hu hx
    rw [List.map_cons, List.sum_cons, List.length_cons]
    exact ⟨by omega, by omega⟩

theorem unpack32Array_spends {b b' : Buf} {ids : List UInt32}
    (h : unpack32Array b = (some ids, b')) :
    b.processed + (4 + 4 * ids.length) ≤ b'.processed := by
  obtain ⟨size, b1, hsize, hrest⟩ := bind_eq_some h
  have hp := unpackNum_spends hsize
  obtain ⟨-, hsum⟩ := @unpackMany_spends _ _ (fun _ => 4)
    (fun {b b' x} hx => Nat.le_of_eq (unpackNum_spends hx).symm) _ _ _ _ hrest
  rw [List.map_const', List.sum_replicate, smul_eq_mul] at hsum
  omega

/-- The bytes of a layout. -/
theorem total_items (l : StepLayout) :
    Chunk.total ((items l).flatMap Item.chunks) =
      2 + (4 + (strData l.nodeList).length) + 4 + 4 + 2 +
        (l.tids.map fun ids => 4 + 4 * ids.length).sum := by
  have harrays : Chunk.total ((l.tids.map Item.u32Array).flatMap Item.chunks) =
      (l.tids.map fun ids => 4 + 4 * ids.length).sum := by
    induction l.tids with
    | nil => rfl
    | cons ids tids ih =>
      have harray : Chunk.total (array32Chunks ids) = 4 + 4 * ids.length := by
        have hids : Chunk.total (ids.flatMap fun v => [numChunk (toBe 4 v.toNat)]) =
            4 * ids.length := by
          induction ids with
          | nil => rfl
          | cons v ids ih =>
            rw [List.flatMap_cons, Chunk.total_append, ih, List.length_cons]
            simp [Chunk.total, numChunk]
            omega
        rw [array32Chunks, ← hids]
        simp [Chunk.total, numChunk]
      rw [List.map_cons, List.flatMap_cons, Chunk.total_append, ih, List.map_cons, List.sum_cons]
      exact congrArg (· + _) harray
  have hheader : Chunk.total ((header l).flatMap Item.chunks) =
      2 + (4 + (strData l.nodeList).length) + 4 + 4 + 2 := by
    simp [Chunk.total, header, Item.chunks, numChunk, memChunk]
    omega
  rw [items, List.flatMap_append, Chunk.total_append, harrays, hheader]

/-- However a layout is read, it takes its bytes, but for the NUL of the node list. -/
theorem unpackSlurmStepLayout_spends {l : StepLayout} {b b' : Buf}
    (h : unpackSlurmStepLayout b = (some (some l), b')) :
    b.processed + Chunk.total ((items l).flatMap Item.chunks) ≤ b'.processed + 1 := by
  obtain ⟨flag, b1, hflag, h⟩ := bind_eq_some h
  have h1 := unpackNum_spends hflag
  split at h
  · cases (pure_eq_some h).1
  · obtain ⟨nodeList, b2, hlist, h⟩ := bind_eq_some h
    obtain ⟨nodeCnt, b3, hcnt, h⟩ := bind_eq_some h
    obtain ⟨taskCnt, b4, htask, h⟩ := bind_eq_some h
    obtain ⟨taskDist, b5, hdist, h⟩ := bind_eq_some h
    obtain ⟨tids, b6, htids, h⟩ := bind_eq_some h
    obtain ⟨hl, rfl⟩ := pure_eq_some h
    obtain rfl := Option.some.inj hl
    have h2 := unpackstr_spends hlist
    have h3 := unpackNum_spends hcnt
    have h4 := unpackNum_spends htask
    have h5 := unpackNum_spends hdist
    have h6 := (unpackMany_spends unpack32Array_spends htids).2
    rw [total_items]
    dsimp only
    omega

/-! ## Round trip -/

/-- Packing a layout into the buffer ends, and from the bytes it wrote, wherever they come
next, the same layout is unpacked, and just these bytes. -/
def RoundTrips (l : StepLayout) (b : Buf) : Prop :=
  ∃ fuel b' bytes, packSlurmStepLayout fuel (some l) b = some (some b') ∧
    b'.written = b.written ++ bytes ∧
    ∀ r : Buf, bytes <+: r.rest →
      ∃ r', unpackSlurmStepLayout r = (some (some l), r') ∧
        r'.processed = r.processed + bytes.length

theorem two_le_of_mem_chunks {l : StepLayout} :
    ∀ c ∈ (items l).flatMap Item.chunks, 2 ≤ c.bytes.length := by
  intro c hc
  obtain ⟨i, hi, hc⟩ := List.mem_flatMap.mp hc
  rcases List.mem_append.mp hi with hi | hi
  · simp only [header, List.mem_cons, List.not_mem_nil, or_false] at hi
    rcases hi with rfl | rfl | rfl | rfl | rfl <;>
    · obtain rfl := List.mem_singleton.mp hc
      simp only [numChunk, memChunk, List.length_append, length_toBe]
      omega
  · obtain ⟨ids, -, rfl⟩ := List.mem_map.mp hi
    simp only [Item.chunks, array32Chunks, List.mem_cons, List.mem_flatMap, List.not_mem_nil,
      or_false] at hc
    rcases hc with rfl | ⟨v, -, rfl⟩ <;> simp [numChunk]

/-- A layout comes back exactly when it has at most 65535 nodes and every write has room
in the buffer. -/
theorem roundTrips_iff {l : StepLayout} (h : l.Valid) (b : Buf) :
    RoundTrips l b ↔ l.nodeCnt.toNat ≤ 65535 ∧
      Granted b.size b.processed ((items l).flatMap Item.chunks) := by
  constructor
  · rintro ⟨fuel, b', bytes, hpack, hw, hread⟩
    have hcnt : l.nodeCnt.toNat ≤ 65535 := by
      by_contra hmany
      exact packSlurmStepLayout_runs_on (by omega) hpack
    refine ⟨hcnt, ?_⟩
    by_contra hg
    -- bytes are missing, but a reading that gives the layout takes as many
    have hrun : b.run ((items l).flatMap Item.chunks) = none := Buf.run_spec.2 hg
    have hshort := (encodes_packItems (items l)).short two_le_of_mem_chunks hrun
      (packSlurmStepLayout_packItems h hcnt hpack)
    have hlen : bytes.length < 4294967296 := by
      have hproc := congrArg List.length hw
      rw [List.length_append, Buf.length_written, Buf.length_written] at hproc
      have hin := b'.inBounds
      have hsize := b'.size_lt
      omega
    obtain ⟨r', hunpack, hproc⟩ := hread ⟨bytes, 0, Nat.zero_le _, hlen⟩ (List.prefix_refl _)
    have hspends := unpackSlurmStepLayout_spends hunpack
    have hwritten := congrArg List.length hw
    rw [List.length_append, Buf.length_written, Buf.length_written] at hwritten
    dsimp only at hproc hspends
    omega
  · rintro ⟨hcnt, hg⟩
    obtain ⟨b', hpack, hw, hread⟩ := (unpackSlurmStepLayout_decodes h).roundTrip hg
    refine ⟨l.nodeCnt.toNat + 1, b', _, ?_, hw, fun r hpre => ?_⟩
    · rw [packSlurmStepLayout_eq h hcnt (Nat.lt_succ_self _), hpack]
    · obtain ⟨r', hunpack, hproc⟩ := hread r hpre
      exact ⟨r', hunpack, by rw [hproc, Chunk.length_flat]⟩

/-- Three tasks on two nodes, in a buffer that has to grow. -/
theorem roundTrips_two_nodes :
    RoundTrips ⟨some (CString.ofBytes [110, 91, 49, 45, 50, 93]), 2, 3, 1, [2, 1], [[0, 1], [2]]⟩
      ⟨[0], 0, Nat.zero_le _, by decide⟩ :=
  (roundTrips_iff (by constructor <;> rfl) _).mpr ⟨by decide, by decide +kernel⟩

/-- One task on each of 65536 nodes: packing never ends. -/
theorem not_roundTrips_65536 :
    ∃ l b, l.Valid ∧ l.nodeCnt = 65536 ∧ initBuf 0 = some b ∧ ¬ RoundTrips l b := by
  obtain ⟨b, hb, -, -⟩ := initBuf_zero
  refine ⟨⟨none, 65536, 65536, 1, List.replicate 65536 1,
    (List.range 65536).map fun i => [UInt32.ofNat i]⟩, b, ⟨?_, ?_⟩, rfl, hb, ?_⟩
  · rw [List.length_map, List.length_range]
    rfl
  · rw [List.map_map]
    show (List.replicate 65536 (1 : UInt16)).map UInt16.toNat = (List.range 65536).map fun _ => 1
    rw [List.map_replicate, List.map_const', List.length_range]
    rfl
  · rintro ⟨fuel, b', bytes, hpack, -⟩
    exact packSlurmStepLayout_runs_on (by decide) hpack

end Slurm.Layout
