import SlurmLite.Pack
import SlurmLite.Cred.Context

/-!
# Handing a context over

The states of a verifier as `slurm_cred_ctx_pack` packs them, and what the next process has of
them when the data was cut off somewhere.

* **Unpackers of a fixed size** (`Takes`): what they leave when there is too little.
* **Lists** (`unpackList_take`): the states that are whole in the data.
* **Contexts** (`restored_of_saved`, `restart_saved`).
-/

namespace Slurm.JobCredential

open Base.Bytes Slurm.Pack

variable {κ : Type}

/-! ## Packing -/

/-- `_job_state_pack_one`. -/
def jobStatePackOne (j : JobState) : List Item :=
  [.u32 j.jobid, .time (Int64.ofInt j.revoked), .time (Int64.ofInt j.ctime),
    .time (Int64.ofInt j.expiration)]

/-- `_cred_state_pack_one`. -/
def credStatePackOne (s : CredState) : List Item :=
  [.u32 s.jobid, .u32 s.stepid, .time (Int64.ofInt s.ctime), .time (Int64.ofInt s.expiration)]

/-- `_job_state_pack`. -/
def jobStatePack (jobList : List JobState) : List Item :=
  .u32 (UInt32.ofNat jobList.length) :: jobList.flatMap jobStatePackOne

/-- `_cred_state_pack`. -/
def credStatePack (stateList : List CredState) : List Item :=
  .u32 (UInt32.ofNat stateList.length) :: stateList.flatMap credStatePackOne

/-- `slurm_cred_ctx_pack`. -/
def slurmCredCtxPack (ctx : Ctx κ) : List Item :=
  jobStatePack ctx.jobList ++ credStatePack ctx.stateList

/-! ## Unpacking -/

/-- `_job_state_unpack_one`. -/
def jobStateUnpackOne : Unpacker JobState := do
  let jobid ← unpack32
  let revoked ← unpackTime
  let ctime ← unpackTime
  let expiration ← unpackTime
  pure (revokeEnds ⟨jobid, revoked.toInt, ctime.toInt, expiration.toInt⟩)

/-- `_cred_state_unpack_one`. -/
def credStateUnpackOne : Unpacker CredState := do
  let jobid ← unpack32
  let stepid ← unpack32
  let ctime ← unpackTime
  let expiration ← unpackTime
  pure ⟨jobid, stepid, ctime.toInt, expiration.toInt⟩

section

variable {α : Type} (unpackOne : Unpacker α) (keeps : α → Bool)

/-- The loop of `_job_state_unpack` and of `_cred_state_unpack`. What was appended before a state
that cannot be unpacked stays in the list. -/
def unpackStates : Nat → List α → Buf → List α × Buf
  | 0, l, b => (l, b)
  | n + 1, l, b =>
    match unpackOne b with
    | (none, b) => (l, b)
    | (some x, b) => unpackStates n (if keeps x then l ++ [x] else l) b

/-- Both functions: the number of states, and then the states. -/
def unpackList (l : List α) (b : Buf) : List α × Buf :=
  match unpack32 b with
  | (none, b) => (l, b)
  | (some n, b) => unpackStates unpackOne keeps n.toNat l b

end

/-- `_job_state_unpack`. -/
def jobStateUnpack (now : Int) : List JobState → Buf → List JobState × Buf :=
  unpackList jobStateUnpackOne (keepsJob now)

/-- `_cred_state_unpack`. -/
def credStateUnpack (now : Int) : List CredState → Buf → List CredState × Buf :=
  unpackList credStateUnpackOne (keepsCred now)

/-- `slurm_cred_ctx_unpack`, which does not ask whether the job states could be unpacked. -/
def slurmCredCtxUnpack (now later : Int) (ctx : Ctx κ) (b : Buf) : Ctx κ × Buf :=
  let (jobList, b) := jobStateUnpack now ctx.jobList b
  let (stateList, b) := credStateUnpack later ctx.stateList b
  ({ ctx with jobList := jobList, stateList := stateList }, b)

/-! ## Unpackers of a fixed size -/

/-- The unpacker takes `n` bytes when there are as many. Else it fails where less than `w` are
left. -/
structure Takes {α : Type} (u : Unpacker α) (n w : Nat) : Prop where
  ok : ∀ {b : Buf}, n ≤ b.remaining → ∃ x b', u b = (some x, b') ∧ b'.remaining = b.remaining - n
  short : ∀ {b : Buf}, b.remaining < n → ∃ b', u b = (none, b') ∧ b'.remaining < w

namespace Takes

variable {α β : Type}

theorem pure (x : α) (w : Nat) : Takes (Pure.pure x : Unpacker α) 0 w where
  ok := fun {b} _ => ⟨x, b, rfl, rfl⟩
  short := fun h => absurd h (Nat.not_lt_zero _)

theorem bytes {n w : Nat} (h : n ≤ w) : Takes (unpackBytes n) n w where
  ok := by
    intro b hb
    refine ⟨_, _, dif_pos hb, ?_⟩
    simp only [Buf.remaining, Buf.size]
    omega
  short := fun {b} hb => ⟨b, dif_neg (by omega), by omega⟩

theorem bind {u : Unpacker α} {f : α → Unpacker β} {n m w : Nat} (hu : Takes u n w)
    (hf : ∀ x, Takes (f x) m w) : Takes (u >>= f) (n + m) w where
  ok := by
    intro b hb
    obtain ⟨x, b1, hu1, hr1⟩ := hu.ok (b := b) (by omega)
    obtain ⟨y, b2, hf2, hr2⟩ := (hf x).ok (b := b1) (by omega)
    refine ⟨y, b2, ?_, by omega⟩
    simp only [Bind.bind, hu1, hf2]
  short := by
    intro b hb
    rcases Nat.lt_or_ge b.remaining n with hlt | hge
    · obtain ⟨b1, hu1, hr1⟩ := hu.short hlt
      refine ⟨b1, ?_, hr1⟩
      simp only [Bind.bind, hu1]
    · obtain ⟨x, b1, hu1, hr1⟩ := hu.ok hge
      obtain ⟨b2, hf2, hr2⟩ := (hf x).short (b := b1) (by omega)
      refine ⟨b2, ?_, hr2⟩
      simp only [Bind.bind, hu1, hf2]

theorem num32 : Takes unpack32 4 8 := (bytes (by decide)).bind fun _ => pure _ 8

theorem time : Takes unpackTime 8 8 := (bytes (by decide)).bind fun _ => pure _ 8

end Takes

theorem jobStateUnpackOne_takes : Takes jobStateUnpackOne 28 8 :=
  Takes.num32.bind fun _ => Takes.time.bind fun _ => Takes.time.bind fun _ =>
    Takes.time.bind fun _ => Takes.pure _ 8

theorem credStateUnpackOne_takes : Takes credStateUnpackOne 24 8 :=
  Takes.num32.bind fun _ => Takes.num32.bind fun _ => Takes.time.bind fun _ =>
    Takes.time.bind fun _ => Takes.pure _ 8

/-! ## Lists -/

section

variable {α : Type} {unpackOne : Unpacker α} {keeps : α → Bool} {n : Nat}

/-- Where less than a number and one state is left, nothing is appended. -/
theorem unpackList_short (htakes : Takes unpackOne n 8) {l : List α} {b : Buf}
    (hb : b.remaining < 4 + n) : (unpackList unpackOne keeps l b).1 = l := by
  unfold unpackList
  rcases Nat.lt_or_ge b.remaining 4 with hlt | hge
  · obtain ⟨b1, h1, -⟩ := Takes.num32.short hlt
    rw [h1]
  · obtain ⟨count, b1, h1, hr1⟩ := Takes.num32.ok hge
    rw [h1]
    simp only
    cases count.toNat with
    | zero => rfl
    | succ m =>
      obtain ⟨b2, h2, -⟩ := htakes.short (b := b1) (by omega)
      rw [unpackStates, h2]

variable {β : Type} {enc : β → List UInt8} {back : β → α}

/-- The loop, over data that was cut off after `k` bytes: the states that are whole in it. -/
theorem unpackStates_take (keeps : α → Bool) (hn : 0 < n) (htakes : Takes unpackOne n 8)
    {xs : List β}
    (hlen : ∀ x ∈ xs, (enc x).length = n) (hreads : ∀ x ∈ xs, Reads unpackOne (enc x) (back x))
    {tail : List UInt8} : ∀ {k : Nat} (l : List α) {b : Buf},
    b.rest = (xs.flatMap enc ++ tail).take k →
    ∃ b', unpackStates unpackOne keeps xs.length l b =
        (l ++ ((xs.take (k / n)).map back).filter keeps, b') ∧
      (n * xs.length ≤ k → b'.rest = tail.take (k - n * xs.length)) ∧
      (k < n * xs.length → b'.remaining < 8) := by
  induction xs with
  | nil =>
    intro k l b hrest
    refine ⟨b, ?_, fun _ => ?_, fun h => ?_⟩
    · rw [List.take_nil, List.map_nil, List.filter_nil, List.append_nil]
      rfl
    · rw [hrest, List.flatMap_nil, List.nil_append, List.length_nil, Nat.mul_zero, Nat.sub_zero]
    · rw [List.length_nil, Nat.mul_zero] at h
      omega
  | cons x xs ih =>
    intro k l b hrest
    have hx := hlen x List.mem_cons_self
    have hcons : n * (x :: xs).length = n * xs.length + n := by
      rw [List.length_cons, Nat.mul_succ]
    rcases Nat.lt_or_ge k n with hcut | hwhole
    · -- the first state is cut off
      have hshort : b.remaining < n := by
        rw [← Buf.length_rest, hrest, List.length_take]
        omega
      obtain ⟨b', hu, hr⟩ := htakes.short hshort
      refine ⟨b', ?_, fun h => by omega, fun _ => hr⟩
      rw [List.length_cons, unpackStates, hu, Nat.div_eq_of_lt hcut, List.take_zero,
        List.map_nil, List.filter_nil, List.append_nil]
    · have hsplit : b.rest = enc x ++ (xs.flatMap enc ++ tail).take (k - n) := by
        rw [hrest, List.flatMap_cons, List.append_assoc, List.take_append, hx,
          List.take_of_length_le (by omega)]
      obtain ⟨b1, hu, -, hr1⟩ :=
        hreads x List.mem_cons_self b ⟨_, hsplit.symm⟩
      rw [hsplit, List.drop_left] at hr1
      obtain ⟨b', hstates, hall, hpart⟩ :=
        ih (fun y hy => hlen y (List.mem_cons_of_mem _ hy))
          (fun y hy => hreads y (List.mem_cons_of_mem _ hy))
          (if keeps (back x) then l ++ [back x] else l) hr1
      refine ⟨b', ?_, fun h => ?_, fun h => hpart (by omega)⟩
      · rw [List.length_cons, unpackStates, hu]
        simp only
        rw [hstates, Nat.div_eq_sub_div hn hwhole, List.take_succ_cons, List.map_cons,
          List.filter_cons]
        split
        · rw [List.append_assoc, List.singleton_append]
        · rfl
      · rw [hall (by omega)]
        congr 1
        omega

/-- The number and the states, over data that was cut off after `k` bytes. -/
theorem unpackList_take (keeps : α → Bool) (hn : 0 < n) (htakes : Takes unpackOne n 8)
    {xs : List β}
    (hcount : xs.length < 4294967296) (hlen : ∀ x ∈ xs, (enc x).length = n)
    (hreads : ∀ x ∈ xs, Reads unpackOne (enc x) (back x)) {tail : List UInt8} {k : Nat}
    (l : List α) {b : Buf}
    (hrest : b.rest =
      (toBe 4 (UInt32.ofNat xs.length).toNat ++ (xs.flatMap enc ++ tail)).take k) :
    ∃ b', unpackList unpackOne keeps l b =
        (l ++ ((xs.take ((k - 4) / n)).map back).filter keeps, b') ∧
      (4 + n * xs.length ≤ k → b'.rest = tail.take (k - (4 + n * xs.length))) ∧
      (k < 4 + n * xs.length → b'.remaining < 8) := by
  unfold unpackList
  have hfour : (toBe 4 (UInt32.ofNat xs.length).toNat).length = 4 := length_toBe _ _
  rcases Nat.lt_or_ge k 4 with hcut | hwhole
  · have hshort : b.remaining < 4 := by
      rw [← Buf.length_rest, hrest, List.length_take]
      omega
    obtain ⟨b', hu, hr⟩ := Takes.num32.short hshort
    refine ⟨b', ?_, fun h => by omega, fun _ => hr⟩
    rw [hu, Nat.sub_eq_zero_of_le (by omega), Nat.zero_div, List.take_zero, List.map_nil,
      List.filter_nil, List.append_nil]
  · have hsplit : b.rest = toBe 4 (UInt32.ofNat xs.length).toNat ++
        (xs.flatMap enc ++ tail).take (k - 4) := by
      rw [hrest, List.take_append, hfour, List.take_of_length_le (by omega)]
    obtain ⟨b1, hu, -, hr1⟩ := Reads.num32 (UInt32.ofNat xs.length) b ⟨_, hsplit.symm⟩
    rw [hsplit, List.drop_left] at hr1
    obtain ⟨b', hstates, hall, hpart⟩ :=
      unpackStates_take keeps hn htakes hlen hreads l hr1
    refine ⟨b', ?_, fun h => ?_, fun h => hpart (by omega)⟩
    · rw [hu]
      simp only
      rw [UInt32.toNat_ofNat_of_lt' hcount, hstates]
    · rw [hall (by omega)]
      congr 1
      omega

end

/-! ## States -/

/-- A time fits `time_t`. -/
def TimeFits (t : Int) : Prop := -2 ^ 63 ≤ t ∧ t < 2 ^ 63

instance (t : Int) : Decidable (TimeFits t) := inferInstanceAs (Decidable (_ ∧ _))

/-- The times of a context fit `time_t`. -/
structure Ctx.Fits (ctx : Ctx κ) : Prop where
  jobs : ∀ j ∈ ctx.jobList, TimeFits j.revoked ∧ TimeFits j.ctime ∧ TimeFits j.expiration
  creds : ∀ s ∈ ctx.stateList, TimeFits s.ctime ∧ TimeFits s.expiration

/-- The bytes of packed values. -/
def bytesOf (items : List Item) : List UInt8 := Chunk.flat (items.flatMap Item.chunks)

theorem bytesOf_nil : bytesOf [] = [] := rfl

theorem bytesOf_append (is js : List Item) : bytesOf (is ++ js) = bytesOf is ++ bytesOf js := by
  rw [bytesOf, List.flatMap_append, Chunk.flat_append]
  rfl

theorem bytesOf_u32 (v : UInt32) (items : List Item) :
    bytesOf (.u32 v :: items) = toBe 4 v.toNat ++ bytesOf items := by
  simp [bytesOf, Item.chunks, Chunk.flat, numChunk]

theorem bytesOf_time (t : Int64) (items : List Item) :
    bytesOf (.time t :: items) = toBe 8 t.toUInt64.toNat ++ bytesOf items := by
  simp [bytesOf, Item.chunks, Chunk.flat, numChunk]

theorem bytesOf_flatMap {β : Type} (f : β → List Item) (xs : List β) :
    bytesOf (xs.flatMap f) = xs.flatMap fun x => bytesOf (f x) := by
  induction xs with
  | nil => rfl
  | cons x xs ih => rw [List.flatMap_cons, bytesOf_append, ih, List.flatMap_cons]

theorem length_jobStatePackOne (j : JobState) : (bytesOf (jobStatePackOne j)).length = 28 := by
  simp only [jobStatePackOne, bytesOf_u32, bytesOf_time, bytesOf_nil, List.length_append,
    length_toBe, List.length_nil]

theorem length_credStatePackOne (s : CredState) : (bytesOf (credStatePackOne s)).length = 24 := by
  simp only [credStatePackOne, bytesOf_u32, bytesOf_time, bytesOf_nil, List.length_append,
    length_toBe, List.length_nil]

theorem TimeFits.toInt_ofInt {t : Int} (h : TimeFits t) : (Int64.ofInt t).toInt = t :=
  Int64.toInt_ofInt_of_le h.1 h.2

theorem jobStateUnpackOne_reads {j : JobState}
    (h : TimeFits j.revoked ∧ TimeFits j.ctime ∧ TimeFits j.expiration) :
    Reads jobStateUnpackOne (bytesOf (jobStatePackOne j)) (revokeEnds j) := by
  obtain ⟨h1, h2, h3⟩ := h
  have hread : Decodes jobStateUnpackOne (jobStatePackOne j)
      (revokeEnds ⟨j.jobid, (Int64.ofInt j.revoked).toInt, (Int64.ofInt j.ctime).toInt,
        (Int64.ofInt j.expiration).toInt⟩) :=
    Decodes.u32 (Decodes.time (Decodes.time (Decodes.time (Decodes.pure _))))
  rw [h1.toInt_ofInt, h2.toInt_ofInt, h3.toInt_ofInt] at hread
  refine hread fun i hi => ?_
  simp only [jobStatePackOne, List.mem_cons, List.not_mem_nil, or_false] at hi
  rcases hi with rfl | rfl | rfl | rfl <;> trivial

theorem credStateUnpackOne_reads {s : CredState} (h : TimeFits s.ctime ∧ TimeFits s.expiration) :
    Reads credStateUnpackOne (bytesOf (credStatePackOne s)) s := by
  obtain ⟨h1, h2⟩ := h
  have hread : Decodes credStateUnpackOne (credStatePackOne s)
      ⟨s.jobid, s.stepid, (Int64.ofInt s.ctime).toInt, (Int64.ofInt s.expiration).toInt⟩ :=
    Decodes.u32 (Decodes.u32 (Decodes.time (Decodes.time (Decodes.pure _))))
  rw [h1.toInt_ofInt, h2.toInt_ofInt] at hread
  refine hread fun i hi => ?_
  simp only [credStatePackOne, List.mem_cons, List.not_mem_nil, or_false] at hi
  rcases hi with rfl | rfl | rfl | rfl <;> trivial

/-! ## Contexts -/

/-- The bytes that a context is packed in. -/
def packedSize (ctx : Ctx κ) : Nat := 8 + 28 * ctx.jobList.length + 24 * ctx.stateList.length

theorem bytesOf_slurmCredCtxPack (ctx : Ctx κ) : bytesOf (slurmCredCtxPack ctx) =
    toBe 4 (UInt32.ofNat ctx.jobList.length).toNat ++
      ((ctx.jobList.flatMap fun j => bytesOf (jobStatePackOne j)) ++
        (toBe 4 (UInt32.ofNat ctx.stateList.length).toNat ++
          ((ctx.stateList.flatMap fun s => bytesOf (credStatePackOne s)) ++ []))) := by
  rw [slurmCredCtxPack, bytesOf_append, jobStatePack, credStatePack, bytesOf_u32, bytesOf_u32,
    bytesOf_flatMap, bytesOf_flatMap, List.append_assoc, List.append_nil]

theorem length_slurmCredCtxPack (ctx : Ctx κ) :
    (bytesOf (slurmCredCtxPack ctx)).length = packedSize ctx := by
  rw [bytesOf_slurmCredCtxPack]
  simp only [List.length_append, length_toBe, List.length_flatMap, length_jobStatePackOne,
    length_credStatePackOne, List.map_const', List.sum_replicate, smul_eq_mul, List.length_nil,
    packedSize]
  omega

/-- Numbers and times are written in one piece each. -/
theorem small_slurmCredCtxPack (ctx : Ctx κ) :
    ∀ c ∈ (slurmCredCtxPack ctx).flatMap Item.chunks,
      c.extra = bufSize ∧ c.bytes.length ≤ bufSize := by
  have hplain : ∀ i ∈ slurmCredCtxPack ctx, (∃ v, i = .u32 v) ∨ ∃ t, i = .time t := by
    intro i hi
    simp only [slurmCredCtxPack, jobStatePack, credStatePack, jobStatePackOne, credStatePackOne,
      List.mem_append, List.mem_cons, List.mem_flatMap, List.not_mem_nil, or_false] at hi
    rcases hi with (rfl | ⟨_, -, rfl | rfl | rfl | rfl⟩) | rfl | ⟨_, -, rfl | rfl | rfl | rfl⟩ <;>
      simp
  intro c hc
  obtain ⟨i, hi, hci⟩ := List.mem_flatMap.mp hc
  rcases hplain i hi with ⟨v, rfl⟩ | ⟨t, rfl⟩ <;>
    · rw [Item.chunks, List.mem_singleton] at hci
      subst hci
      refine ⟨rfl, ?_⟩
      rw [numChunk, length_toBe]
      decide

/-- What the next context has of a context that was packed, when the data was cut off after `k`
bytes. -/
def whatIsWhole (now later : Int) (k : Nat) (ctx ctx' : Ctx κ) : Ctx κ :=
  ctxUnpacked now later ctx' (ctx.jobList.take ((k - 4) / 28))
    (ctx.stateList.take ((k - (8 + 28 * ctx.jobList.length)) / 24))

theorem slurmCredCtxUnpack_take {now later : Int} {k : Nat} {ctx ctx' : Ctx κ} {f : Buf}
    (hfits : ctx.Fits) (hsize : packedSize ctx < 4294967296)
    (hrest : f.rest = (bytesOf (slurmCredCtxPack ctx)).take k) :
    (slurmCredCtxUnpack now later ctx' f).1 = whatIsWhole now later k ctx ctx' := by
  unfold packedSize at hsize
  rw [bytesOf_slurmCredCtxPack] at hrest
  obtain ⟨f1, hjobs, hall, hpart⟩ :=
    unpackList_take (keepsJob now) (by decide) jobStateUnpackOne_takes (by omega)
      (fun j _ => length_jobStatePackOne j)
      (fun j hj => jobStateUnpackOne_reads (hfits.jobs j hj)) ctx'.jobList hrest
  have hstates : (credStateUnpack later ctx'.stateList f1).1 = ctx'.stateList ++
      (ctx.stateList.take ((k - (8 + 28 * ctx.jobList.length)) / 24)).filter (keepsCred later) := by
    unfold credStateUnpack
    rcases Nat.lt_or_ge k (4 + 28 * ctx.jobList.length) with hcut | hwhole
    · -- what is left of a job state is too short for a credential state
      have hleft := hpart hcut
      rw [unpackList_short credStateUnpackOne_takes (by omega),
        Nat.sub_eq_zero_of_le (by omega), Nat.zero_div, List.take_zero, List.filter_nil,
        List.append_nil]
    · obtain ⟨f2, hcreds, -, -⟩ :=
        unpackList_take (keepsCred later) (by decide) credStateUnpackOne_takes (by omega)
          (fun s _ => length_credStatePackOne s)
          (fun s hs => credStateUnpackOne_reads (hfits.creds s hs)) ctx'.stateList (hall hwhole)
      rw [hcreds, List.map_id', Nat.sub_sub,
        show 4 + 28 * ctx.jobList.length + 4 = 8 + 28 * ctx.jobList.length by omega]
  unfold slurmCredCtxUnpack jobStateUnpack
  simp only [hjobs]
  rw [whatIsWhole, ctxUnpacked]
  simp only [hstates]

/-- **Handing over.** A context whose data does not outgrow a buffer is packed, and its data is
cut off after any number of bytes. Then the next context has the job states that are whole in it,
and the credential states that are whole in it, as far as they have not expired. -/
theorem restored_of_saved (now later : Int) (k : Nat) {ctx ctx' : Ctx κ} {b : Buf}
    (hfits : ctx.Fits) (hsize : packedSize ctx ≤ maxBufSize - bufSize) (hb : b.processed = 0) :
    ∃ b' f, packItems (slurmCredCtxPack ctx) b = some b' ∧
      createBuf (b'.written.take k) = some f ∧
      (slurmCredCtxUnpack now later ctx' f).1 = whatIsWhole now later k ctx ctx' := by
  have hlimit : maxBufSize - bufSize < maxBufSize := by decide
  have hmax : maxBufSize < 4294967296 := by decide
  have htotal : Chunk.total ((slurmCredCtxPack ctx).flatMap Item.chunks) = packedSize ctx := by
    rw [← Chunk.length_flat]
    exact length_slurmCredCtxPack ctx
  have hg : Granted b.size b.processed ((slurmCredCtxPack ctx).flatMap Item.chunks) :=
    granted_of_small b.inBounds (small_slurmCredCtxPack ctx) (by omega)
  obtain ⟨b', hrun, hw⟩ := Buf.run_of_granted hg
  rw [Buf.written_at_start hb, List.nil_append] at hw
  have hlen : (b'.written.take k).length ≤ maxBufSize := by
    rw [hw, List.length_take]
    have := length_slurmCredCtxPack ctx
    unfold bytesOf at this
    omega
  refine ⟨b', _, (encodes_packItems _).ok hrun, dif_pos hlen, ?_⟩
  refine slurmCredCtxUnpack_take hfits (by omega) ?_
  show (b'.written.take k).drop 0 = _
  rw [List.drop_zero, hw]
  rfl

/-- The whole data: the next context is that of the step to the next process. -/
theorem restart_saved {verifySign : κ → Cred → Bool} {now later expiryWindow : Int} {key : κ}
    {s : Verifier κ} {f : Buf} (hfits : s.ctx.Fits) (hsize : packedSize s.ctx < 4294967296)
    (hrest : f.rest = bytesOf (slurmCredCtxPack s.ctx)) :
    (slurmCredCtxUnpack now later (verifierCtxCreate key expiryWindow) f).1 =
      (next verifySign s (.restart now later key expiryWindow)).ctx := by
  have hlen := length_slurmCredCtxPack s.ctx
  rw [slurmCredCtxUnpack_take (k := packedSize s.ctx) hfits hsize
    (by rw [hrest, ← hlen, List.take_length])]
  show whatIsWhole _ _ _ _ _ = ctxUnpacked _ _ _ _ _
  unfold whatIsWhole packedSize
  rw [List.take_of_length_le (by omega), List.take_of_length_le (by omega)]

/-- Of two job states and one credential state, with the second job state cut off. -/
theorem restored_of_saved_cut : ∃ b' f,
    packItems (slurmCredCtxPack (κ := Unit)
      ⟨(), [⟨7, 100, 90, 1900⟩, ⟨8, 0, 95, maxTime⟩], [⟨8, 0, 95, 1895⟩], 1800, none, -1⟩)
      ⟨[], 0, Nat.le_refl 0, by decide⟩ = some b' ∧
    createBuf (b'.written.take 40) = some f ∧
    (slurmCredCtxUnpack 120 121 (verifierCtxCreate () 1800) f).1 =
      ⟨(), [⟨7, 100, 90, 1900⟩], [], 1800, none, -1⟩ := by
  obtain ⟨b', f, hpack, hf, hunpack⟩ := @restored_of_saved Unit 120 121 40
    ⟨(), [⟨7, 100, 90, 1900⟩, ⟨8, 0, 95, maxTime⟩], [⟨8, 0, 95, 1895⟩], 1800, none, -1⟩
    (verifierCtxCreate () 1800) ⟨[], 0, Nat.le_refl 0, by decide⟩
    ⟨by decide, by decide⟩ (by decide) rfl
  exact ⟨b', f, hpack, hf, hunpack⟩

end Slurm.JobCredential
