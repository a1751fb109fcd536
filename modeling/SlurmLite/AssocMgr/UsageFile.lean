import SlurmLite.Pack
import SlurmLite.AssocMgr.Usage

/-!
# The usage file

The file of the usage of the user associations that `dump_assoc_mgr_state` writes and
`load_assoc_usage` reads back into the tree.

* **Writing** (`dumpAssocUsage`): a record of sixteen bytes for each user association, the
  usage cut to whole numbers.
* **Reading** (`loadAssocUsage`): each record added along the parents up to the root.
* **Restoring** (`restored_of_file`): what a tree gets back.
-/

namespace Slurm.AssocMgr

open Base.Bytes Base.CLib Base.Sums Slurm.Pack

/-! ## Writing -/

/-- `ASSOC_USAGE_VERSION`. -/
def assocUsageVersion : UInt16 := 1

/-- The conversion of a floating number to an unsigned integer of `bits` bits; the whole part
has to be one. -/
def toUnsigned (bits : Nat) (x : ℚ) : Option Nat :=
  if -1 < x ∧ x < 2 ^ bits then some ⌊x⌋₊ else none

/-- What is packed of a user association. -/
def usageItems (r : Assoc) : Option (List Item) := do
  let usageRaw ← toUnsigned 64 r.used.usageRaw
  let grpUsedWall ← toUnsigned 32 r.used.grpUsedWall
  return [.u32 r.id, .u64 (UInt64.ofNat usageRaw), .u32 (UInt32.ofNat grpUsedWall)]

/-- The user associations of a list. -/
def users (recs : List Assoc) : List Assoc := recs.filter (·.user.isSome)

/-- The usage file of `dump_assoc_mgr_state`, from a buffer of `highBufferSize`; `none` where a
conversion or a write is undefined. The number of bytes to write is an `int`: from 2^31 on none
are written. -/
def dumpAssocUsage (highBufferSize : Int) (now : Int64) (m : Mgr) : Option (List UInt8) := do
  let records ← (users (m.assocList.getD [])).mapM usageItems
  let b ← initBuf highBufferSize
  let b ← packItems (.u16 assocUsageVersion :: .time now :: records.flatten) b
  let nwrite := int32 b.processed
  return if nwrite > 0 then b.written else []

/-! ## Reading -/

/-- The buffer of a file. While it is read `int data_allocated` is `BUF_SIZE` more than what is
there of it, and there is no more memory when that is no `int`. -/
def readFile (data : List UInt8) : Option Buf :=
  if data.length + bufSize < 2147483648 then createBuf data else none

/-- What is read of a file is all of it. -/
theorem rest_readFile {data : List UInt8} (h : data.length + bufSize < 2147483648) :
    ∃ b, readFile data = some b ∧ b.rest = data := by
  have hmax : data.length ≤ maxBufSize := by
    unfold maxBufSize
    omega
  rw [readFile, if_pos h]
  exact ⟨_, dif_pos hmax, rfl⟩

/-- What `load_assoc_usage` returns. -/
inductive LoadRc
  | success
  | error
  | efault
  deriving DecidableEq

/-- One record of the file. -/
def unpackUsage : Unpacker (UInt32 × UInt64 × UInt32) := do
  let assocId ← unpack32
  let usageRaw ← unpack64
  let grpUsedWall ← unpack32
  pure (assocId, usageRaw, grpUsedWall)

/-- The records that a record of the file is added to: the one at `a` and those above it, up to
the root without it. With as much fuel as there are records, `none` is a pointer to no record
or a circle. -/
def usageLine (recs : List Assoc) (root : Option Nat) : Nat → Nat → Option (List Nat)
  | 0, _ => none
  | n + 1, a =>
    (recs.find? (·.addr = a)).bind fun r =>
      match r.parentAssocPtr with
      | none => some [a]
      | some p => if root = some p then some [a] else (usageLine recs root n p).map (a :: ·)

/-- The usage of a record of the file. -/
def fileUsed (usageRaw : UInt64) (grpUsedWall : UInt32) : Used :=
  { (0 : Used) with usageRaw := usageRaw.toNat, grpUsedWall := grpUsedWall.toNat }

/-- The loop over the records, for at most so many. -/
def loadRecords (root : Option Nat) : Nat → Buf → List Assoc → Option (LoadRc × List Assoc)
  | 0, _, recs => some (.success, recs)
  | n + 1, b, recs =>
    if b.remaining = 0 then some (.success, recs)
    else
      match unpackUsage b with
      | (none, _) => some (.error, recs)
      | (some (assocId, usageRaw, grpUsedWall), b) =>
        match recs.find? (·.id = assocId) with
        | none => loadRecords root n b recs
        | some r => do
          let line ← usageLine recs root recs.length r.addr
          loadRecords root n b
            (line.foldl (addtoUsedInfo (fileUsed usageRaw grpUsedWall)) recs)

/-- `load_assoc_usage` of a file that holds `data`. -/
def loadAssocUsage (data : List UInt8) (m : Mgr) : Option (LoadRc × Mgr) :=
  match m.assocList with
  | none => some (.success, m)
  | some recs => do
    let b ← readFile data
    match unpack16 b with
    | (none, _) => some (.error, m)
    | (some ver, b) =>
      if ver ≠ assocUsageVersion then some (.efault, m)
      else
        match unpackTime b with
        | (none, _) => some (.error, m)
        | (some _, b) => do
          let (rc, recs) ← loadRecords m.rootAssoc b.remaining b recs
          return (rc, { m with assocList := some recs })

/-- `usage_raw` and `grp_used_wall` set to 0. -/
def resetUsage (r : Assoc) : Assoc :=
  { r with used := { r.used with usageRaw := 0, grpUsedWall := 0 } }

/-! ## Lines -/

/-- The records that the usage of `r` is added to. -/
def lineBelowRoot (recs : List Assoc) (r : Assoc) : List Nat :=
  r.addr :: ((lineOf recs r).filter (·.parentId ≠ 0)).map (·.addr)

/-- The walk of the loop stops below the root. -/
theorem usageLine_of_line {recs : List Assoc} {root : Option Nat} {nextAddr : Nat}
    (hk : Kept recs root nextAddr) {r : Assoc} {l : List Assoc} (hr : r ∈ recs)
    (h : Line recs r l) {n : Nat} (hn : l.length < n) :
    usageLine recs root n r.addr =
      some (r.addr :: (l.filter (·.parentId ≠ 0)).map (·.addr)) := by
  induction h generalizing n with
  | root hroot =>
    cases n with
    | zero => exact absurd hn (Nat.not_lt_zero _)
    | succ n =>
      rw [usageLine, find_of_key hk.addrs hr, Option.bind_some, (hk.linked _ hr).1 hroot]
      rfl
  | @up r p l hmem hne hid hrest ih =>
    cases n with
    | zero => exact absurd hn (Nat.not_lt_zero _)
    | succ n =>
      rw [usageLine, find_of_key hk.addrs hr, Option.bind_some,
        (hk.linked _ hr).2 p hmem hne hid]
      dsimp only
      by_cases hp : p.parentId = 0
      · -- the parent is the root, which has nothing above it
        have hnil : l = [] := by
          cases hrest with
          | root _ => rfl
          | up _ hne' _ _ => exact absurd hp hne'
        rw [if_pos ((hk.isRoot p hmem).mp hp), hnil, List.filter_cons_of_neg (by simp [hp])]
        rfl
      · rw [if_neg fun heq => hp ((hk.isRoot p hmem).mpr heq),
          ih hmem (Nat.lt_of_succ_lt_succ hn), List.filter_cons_of_pos (by simp [hp])]
        rfl

theorem Line.length_lt {recs : List Assoc} (hids : (recs.map (·.id)).Nodup) {r : Assoc}
    {l : List Assoc} (hr : r ∈ recs) (h : Line recs r l) : l.length < recs.length := by
  have hnodup : (r :: l).Nodup := List.nodup_cons.mpr ⟨h.not_mem hids, h.nodup hids⟩
  have hsub : ∀ p ∈ r :: l, p ∈ recs := by
    intro p hp
    obtain rfl | hp := List.mem_cons.mp hp
    · exact hr
    · exact h.subset p hp
  exact (List.subperm_of_subset hnodup hsub).length_le

theorem usageLine_eq {recs : List Assoc} {root : Option Nat} {nextAddr : Nat}
    (hk : Kept recs root nextAddr) {r : Assoc} (hr : r ∈ recs) :
    usageLine recs root recs.length r.addr = some (lineBelowRoot recs r) :=
  usageLine_of_line hk hr (hk.tree.line hr) ((hk.tree.line hr).length_lt hk.tree.ids hr)

/-- The records with other usage. -/
def withUsed (f : Assoc → Used) (recs : List Assoc) : List Assoc :=
  recs.map fun r => { r with used := f r }

theorem find_withUsed (f : Assoc → Used) (recs : List Assoc) {p : Assoc → Bool}
    (hp : ∀ r u, p { r with used := u } = p r) :
    (withUsed f recs).find? p = (recs.find? p).map fun r => { r with used := f r } := by
  have hsame : p ∘ (fun r => { r with used := f r }) = p := funext fun r => hp r (f r)
  rw [withUsed, List.find?_map, hsame]

/-- The walk does not look at the usage. -/
theorem usageLine_withUsed (f : Assoc → Used) (recs : List Assoc) (root : Option Nat) (n a : Nat) :
    usageLine (withUsed f recs) root n a = usageLine recs root n a := by
  induction n generalizing a with
  | zero => rfl
  | succ n ih =>
    rw [usageLine, usageLine, find_withUsed f recs fun _ _ => rfl]
    cases recs.find? (·.addr = a) with
    | none => rfl
    | some r =>
      rw [Option.map_some, Option.bind_some, Option.bind_some]
      dsimp only
      cases r.parentAssocPtr with
      | none => rfl
      | some p =>
        dsimp only
        rw [ih p]

theorem foldl_addto_withUsed (u : Used) {line : List Nat} (hline : line.Nodup) (f : Assoc → Used)
    (recs : List Assoc) :
    line.foldl (addtoUsedInfo u) (withUsed f recs) =
      withUsed (fun r => f r + if r.addr ∈ line then u else 0) recs := by
  rw [foldl_addto u hline, bump, withUsed, withUsed, List.map_map]
  rfl

theorem nodup_lineBelowRoot {recs : List Assoc} (ht : IsTree recs)
    (haddrs : (recs.map (·.addr)).Nodup) {r : Assoc} (hr : r ∈ recs) :
    (lineBelowRoot recs r).Nodup := by
  refine List.nodup_cons.mpr ⟨?_, ?_⟩
  · intro hmem
    obtain ⟨p, hp, heq⟩ := List.mem_map.mp hmem
    have hp := (List.mem_filter.mp hp).1
    rw [eq_of_key haddrs ((ht.line hr).subset p hp) hr heq] at hp
    exact (ht.line hr).not_mem ht.ids hp
  · exact (nodup_lineOf ht haddrs hr).sublist (List.filter_sublist.map _)

/-! ## The records of the file -/

/-- What the file can hold of an association. -/
structure InRange (r : Assoc) : Prop where
  usageRaw : 0 ≤ r.used.usageRaw ∧ r.used.usageRaw < 2 ^ 64
  grpUsedWall : 0 ≤ r.used.grpUsedWall ∧ r.used.grpUsedWall < 2 ^ 32

/-- The whole numbers of the usage of a record. -/
def whole (r : Assoc) : Used :=
  { (0 : Used) with usageRaw := ⌊r.used.usageRaw⌋, grpUsedWall := ⌊r.used.grpUsedWall⌋ }

/-- The record of an association in the file. -/
def fileItems (r : Assoc) : List Item :=
  [.u32 r.id, .u64 (UInt64.ofNat ⌊r.used.usageRaw⌋₊), .u32 (UInt32.ofNat ⌊r.used.grpUsedWall⌋₊)]

theorem toUnsigned_eq {bits : Nat} {x : ℚ} (h0 : 0 ≤ x) (h : x < 2 ^ bits) :
    toUnsigned bits x = some ⌊x⌋₊ :=
  if_pos ⟨by linarith, h⟩

theorem InRange.items {r : Assoc} (h : InRange r) : usageItems r = some (fileItems r) := by
  rw [usageItems, toUnsigned_eq h.usageRaw.1 h.usageRaw.2,
    toUnsigned_eq h.grpUsedWall.1 h.grpUsedWall.2]
  rfl

theorem floor_lt {bits : Nat} {x : ℚ} (h0 : 0 ≤ x) (h : x < 2 ^ bits) : ⌊x⌋₊ < 2 ^ bits := by
  refine (Nat.floor_lt h0).mpr ?_
  rw [Nat.cast_pow]
  exact h

theorem natCast_floor {x : ℚ} (h0 : 0 ≤ x) : ((⌊x⌋₊ : Nat) : ℚ) = (⌊x⌋ : Int) := by
  rw [← Int.natCast_floor_eq_floor h0]
  rfl

/-- The numbers of the record are the whole numbers of the usage. -/
theorem InRange.fileUsed_eq {r : Assoc} (h : InRange r) :
    fileUsed (UInt64.ofNat ⌊r.used.usageRaw⌋₊) (UInt32.ofNat ⌊r.used.grpUsedWall⌋₊) = whole r := by
  have hraw : (UInt64.ofNat ⌊r.used.usageRaw⌋₊).toNat = ⌊r.used.usageRaw⌋₊ :=
    UInt64.toNat_ofNat_of_lt' (floor_lt h.usageRaw.1 h.usageRaw.2)
  have hwall : (UInt32.ofNat ⌊r.used.grpUsedWall⌋₊).toNat = ⌊r.used.grpUsedWall⌋₊ :=
    UInt32.toNat_ofNat_of_lt' (floor_lt h.grpUsedWall.1 h.grpUsedWall.2)
  rw [fileUsed, whole, hraw, hwall, natCast_floor h.usageRaw.1, natCast_floor h.grpUsedWall.1]

/-- Reading a record. -/
theorem reads_fileItems (r : Assoc) :
    Reads unpackUsage (Chunk.flat ((fileItems r).flatMap Item.chunks))
      (r.id, UInt64.ofNat ⌊r.used.usageRaw⌋₊, UInt32.ofNat ⌊r.used.grpUsedWall⌋₊) := by
  have hdecodes : Decodes unpackUsage (fileItems r)
      (r.id, UInt64.ofNat ⌊r.used.usageRaw⌋₊, UInt32.ofNat ⌊r.used.grpUsedWall⌋₊) := by
    refine Decodes.u32 (Decodes.cons (fun _ => ?_) (Decodes.u32 (Decodes.pure _)))
    rw [Item.chunks, Chunk.flat_singleton]
    exact Reads.num64 _
  refine hdecodes fun i hi => ?_
  simp only [fileItems, List.mem_cons, List.not_mem_nil, or_false] at hi
  obtain rfl | rfl | rfl := hi <;> trivial

theorem length_fileItems (r : Assoc) :
    (Chunk.flat ((fileItems r).flatMap Item.chunks)).length = 16 := by
  simp [fileItems, Item.chunks, Chunk.flat, numChunk]

/-- The loop over the records of user associations of the tree. -/
theorem loadRecords_eq {recs : List Assoc} {root : Option Nat} {nextAddr : Nat}
    (hk : Kept recs root nextAddr) {us : List Assoc} (hmem : ∀ u ∈ us, u ∈ recs)
    (hrange : ∀ u ∈ us, InRange u) {n : Nat} {b : Buf} {f : Assoc → Used}
    (hrest : b.rest = Chunk.flat ((us.flatMap fileItems).flatMap Item.chunks))
    (hn : b.remaining ≤ n) :
    loadRecords root n b (withUsed f recs) =
      some (.success,
        withUsed (fun r => f r + gained us (lineBelowRoot recs) whole r.addr) recs) := by
  induction us generalizing n b f with
  | nil =>
    have hzero : b.remaining = 0 := by
      rw [← Buf.length_rest, hrest]
      rfl
    have hsame : (fun r => f r + gained [] (lineBelowRoot recs) whole r.addr) = f :=
      funext fun r => add_zero _
    rw [hsame]
    cases n with
    | zero => rfl
    | succ n => rw [loadRecords, if_pos hzero]
  | cons u us ih =>
    have hu := hmem u List.mem_cons_self
    have hur := hrange u List.mem_cons_self
    rw [List.flatMap_cons, List.flatMap_append, Chunk.flat_append] at hrest
    obtain ⟨b', hread, -, hrest'⟩ := reads_fileItems u b ⟨_, hrest.symm⟩
    rw [hrest, List.drop_left] at hrest'
    have hremaining : b.remaining = 16 + b'.remaining := by
      rw [← Buf.length_rest b, hrest, List.length_append, length_fileItems, ← Buf.length_rest b',
        hrest']
    obtain ⟨n, rfl⟩ : ∃ m, n = m + 1 := ⟨n - 1, by omega⟩
    rw [loadRecords, if_neg (by omega), hread]
    dsimp only
    rw [find_withUsed f recs fun _ _ => rfl, find_of_key hk.tree.ids hu, Option.map_some]
    dsimp only
    rw [usageLine_withUsed, withUsed, List.length_map, usageLine_eq hk hu, Option.bind_eq_bind,
      Option.bind_some, ← withUsed, hur.fileUsed_eq,
      foldl_addto_withUsed _ (nodup_lineBelowRoot hk.tree hk.addrs hu),
      ih (fun v hv => hmem v (List.mem_cons_of_mem _ hv))
        (fun v hv => hrange v (List.mem_cons_of_mem _ hv))
        hrest' (by omega)]
    simp only [gained, List.map_cons, List.sum_cons, add_assoc]

/-! ## The file -/

/-- The items of the usage file. -/
def usageFile (now : Int64) (recs : List Assoc) : List Item :=
  .u16 assocUsageVersion :: .time now :: (users recs).flatMap fileItems

theorem mapM_usageItems {us : List Assoc} (hrange : ∀ u ∈ us, InRange u) :
    us.mapM usageItems = some (us.map fileItems) := by
  induction us with
  | nil => rfl
  | cons u us ih =>
    rw [List.mapM_cons, (hrange u List.mem_cons_self).items, Option.bind_eq_bind,
      Option.bind_some, ih fun v hv => hrange v (List.mem_cons_of_mem _ hv)]
    rfl

theorem chunks_fileItems (us : List Assoc) :
    (∀ c ∈ (us.flatMap fileItems).flatMap Item.chunks,
        c.extra = bufSize ∧ c.bytes.length ≤ bufSize) ∧
      Chunk.total ((us.flatMap fileItems).flatMap Item.chunks) = 16 * us.length := by
  induction us with
  | nil => exact ⟨fun c hc => absurd hc List.not_mem_nil, rfl⟩
  | cons u us ih =>
    rw [List.flatMap_cons, List.flatMap_append, Chunk.total_append, ih.2, List.length_cons]
    constructor
    · intro c hc
      obtain hc | hc := List.mem_append.mp hc
      · simp only [fileItems, Item.chunks, List.flatMap_cons, List.flatMap_nil, List.append_nil,
          List.singleton_append, List.mem_cons, List.not_mem_nil, or_false] at hc
        obtain rfl | rfl | rfl := hc <;>
          exact ⟨rfl, by rw [numChunk, length_toBe]; exact of_decide_eq_true rfl⟩
      · exact ih.1 c hc
    · have hlen := length_fileItems u
      rw [Chunk.length_flat] at hlen
      omega

/-- The file holds the items, when there are not too many user associations for the buffer. -/
theorem dumpAssocUsage_eq {m : Mgr} {recs : List Assoc} (hlist : m.assocList = some recs)
    (hrange : ∀ u ∈ users recs, InRange u) {highBufferSize : Int} (hpos : 0 < highBufferSize)
    (hint : highBufferSize < 2147483648) (now : Int64)
    (hcount : (users recs).length ≤ 134216703) :
    dumpAssocUsage highBufferSize now m =
        some (Chunk.flat ((usageFile now recs).flatMap Item.chunks)) ∧
      Chunk.total ((usageFile now recs).flatMap Item.chunks) + bufSize < 2147483648 := by
  obtain ⟨hsmall, htotal⟩ := chunks_fileItems (users recs)
  have htotal' : Chunk.total ((usageFile now recs).flatMap Item.chunks) =
      10 + 16 * (users recs).length := by
    rw [usageFile, List.flatMap_cons, List.flatMap_cons, Chunk.total_append, Chunk.total_append,
      htotal]
    simp only [Item.chunks, numChunk, Chunk.total, List.map_cons, List.map_nil, List.sum_cons,
      List.sum_nil, length_toBe]
    omega
  have hinit : ∃ b, initBuf highBufferSize = some b ∧ b.processed = 0 ∧ b.written = [] := by
    have hsize : ¬uint32 highBufferSize > maxBufSize := by
      unfold uint32 maxBufSize
      omega
    have hlt : highBufferSize.toNat < 4294967296 := by omega
    refine ⟨⟨List.replicate highBufferSize.toNat 0, 0, Nat.zero_le _,
      by rw [List.length_replicate]; exact hlt⟩, ?_, rfl, rfl⟩
    rw [initBuf, if_neg hsize]
    simp only [if_neg (by omega : ¬highBufferSize ≤ 0), dif_pos hlt]
  obtain ⟨b, hb, hprocessed, hwritten⟩ := hinit
  have hgranted : Granted b.size b.processed ((usageFile now recs).flatMap Item.chunks) := by
    rw [hprocessed]
    refine granted_of_small (Nat.zero_le _) ?_ ?_
    · intro c hc
      rw [usageFile, List.flatMap_cons, List.flatMap_cons] at hc
      obtain hc | hc := List.mem_append.mp hc
      · rw [List.mem_singleton.mp hc]
        exact ⟨rfl, of_decide_eq_true rfl⟩
      · obtain hc | hc := List.mem_append.mp hc
        · rw [List.mem_singleton.mp hc]
          exact ⟨rfl, by rw [numChunk, length_toBe]; exact of_decide_eq_true rfl⟩
        · exact hsmall c hc
    · rw [htotal']
      unfold maxBufSize bufSize
      omega
  obtain ⟨b', hrun, hw⟩ := Buf.run_of_granted hgranted
  have hpack := (encodes_packItems (usageFile now recs)).ok hrun
  rw [hwritten, List.nil_append] at hw
  have hnwrite : int32 b'.processed > 0 := by
    rw [← Buf.length_written, hw, Chunk.length_flat, htotal', int32_of_range]
    all_goals omega
  constructor
  · rw [dumpAssocUsage, hlist, Option.getD_some, mapM_usageItems hrange, Option.bind_eq_bind,
      Option.bind_some, hb, Option.bind_eq_bind, Option.bind_some, ← List.flatMap_def,
      ← usageFile, hpack, Option.bind_some]
    dsimp only
    rw [if_pos hnwrite, hw]
    rfl
  · rw [htotal']
    unfold bufSize
    omega

/-- The list that the file is read into. -/
theorem loadAssocUsage_eq {m : Mgr} {recs : List Assoc}
    (hk : Kept recs m.rootAssoc m.nextAddr) (hrange : ∀ u ∈ users recs, InRange u)
    (f : Assoc → Used) (now : Int64)
    (hsize : Chunk.total ((usageFile now recs).flatMap Item.chunks) + bufSize < 2147483648) :
    loadAssocUsage (Chunk.flat ((usageFile now recs).flatMap Item.chunks))
        { m with assocList := some (withUsed f recs) } =
      some (.success, { m with assocList := some (withUsed
        (fun r => f r + gained (users recs) (lineBelowRoot recs) whole r.addr) recs) }) := by
  rw [← Chunk.length_flat] at hsize
  obtain ⟨b, hb, hrest⟩ := rest_readFile hsize
  rw [usageFile, List.flatMap_cons, List.flatMap_cons, Chunk.flat_append, Chunk.flat_append,
    Item.chunks, Item.chunks, Chunk.flat_singleton, Chunk.flat_singleton] at hrest
  obtain ⟨b₁, hver, -, hrest₁⟩ := Reads.num16 assocUsageVersion b ⟨_, hrest.symm⟩
  rw [hrest] at hrest₁
  have hrest₁' := hrest₁.trans List.drop_left
  obtain ⟨b₂, htime, -, hrest₂⟩ := Reads.time now b₁ ⟨_, hrest₁'.symm⟩
  rw [hrest₁'] at hrest₂
  have hrest₂' := hrest₂.trans List.drop_left
  have hloop := loadRecords_eq hk (fun u hu => (List.mem_filter.mp hu).1) hrange
    (f := f) hrest₂' (Nat.le_refl _)
  rw [loadAssocUsage]
  dsimp only
  rw [hb, Option.bind_eq_bind, Option.bind_some, hver]
  dsimp only
  rw [if_neg (fun h => h rfl), htime]
  dsimp only
  rw [hloop]
  rfl

/-! ## Restoring -/

/-- What `r` has got back as `r'`: a user the whole numbers of its usage, an account below the
root their sums over the users below it. -/
structure Restored (recs : List Assoc) (r r' : Assoc) : Prop where
  frame : { r' with used := r.used } = r
  user : r.user.isSome →
    r'.used.usageRaw = ⌊r.used.usageRaw⌋ ∧ r'.used.grpUsedWall = ⌊r.used.grpUsedWall⌋
  account : r.user = none → r.parentId ≠ 0 →
    let below := recs.filter fun u => u.user.isSome && below recs u r
    r'.used.usageRaw = (below.map fun u => (⌊u.used.usageRaw⌋ : ℚ)).sum ∧
      r'.used.grpUsedWall = (below.map fun u => (⌊u.used.grpUsedWall⌋ : ℚ)).sum

/-- A field that adds up of what is gained. -/
theorem gained_field (field : Used → ℚ) (hzero : field 0 = 0)
    (hadd : ∀ a b, field (a + b) = field a + field b) {sources : List Assoc}
    {line : Assoc → List Nat} {given : Assoc → Used} {a : Nat} :
    field (gained sources line given a) =
      ((sources.filter fun s => a ∈ line s).map fun s => field (given s)).sum := by
  rw [← sum_map_ite, gained]
  induction sources with
  | nil => exact hzero
  | cons s sources ih =>
    rw [List.map_cons, List.sum_cons, hadd, ih, List.map_cons, List.sum_cons]
    refine congrArg (· + _) ?_
    rw [apply_ite field, hzero]
    exact if_congr (by rw [decide_eq_true_eq]) rfl rfl

section Gains

variable {recs : List Assoc} {root : Option Nat} {nextAddr : Nat}

theorem mem_lineBelowRoot (hk : Kept recs root nextAddr) {u r : Assoc} (hu : u ∈ recs)
    (hr : r ∈ recs) :
    r.addr ∈ lineBelowRoot recs u ↔ r = u ∨ r ∈ lineOf recs u ∧ r.parentId ≠ 0 := by
  have haddr : r.addr = u.addr ↔ r = u := ⟨eq_of_key hk.addrs hr hu, fun h => h ▸ rfl⟩
  rw [lineBelowRoot, List.mem_cons, haddr]
  refine or_congr_right ⟨fun hmem => ?_, fun hmem => ?_⟩
  · obtain ⟨p, hp, heq⟩ := List.mem_map.mp hmem
    obtain ⟨hp, hne⟩ := List.mem_filter.mp hp
    obtain rfl := eq_of_key hk.addrs ((hk.tree.line hu).subset p hp) hr heq
    exact ⟨hp, of_decide_eq_true hne⟩
  · exact List.mem_map.mpr ⟨r, List.mem_filter.mpr ⟨hmem.1, decide_eq_true hmem.2⟩, rfl⟩

/-- A user gains its own record. -/
theorem gains_of_user (hk : Kept recs root nextAddr) {r : Assoc} (hr : r ∈ recs)
    (huser : r.user.isSome) :
    (users recs).filter (fun u => r.addr ∈ lineBelowRoot recs u) = [r] := by
  have honly : (users recs).filter (fun u => r.addr ∈ lineBelowRoot recs u) =
      (users recs).filter (fun u => u = r) := by
    refine List.filter_congr fun u hu => ?_
    have hu := (List.mem_filter.mp hu).1
    refine decide_eq_decide.mpr ?_
    rw [mem_lineBelowRoot hk hu hr]
    constructor
    · rintro (heq | ⟨hmem, -⟩)
      · exact heq.symm
      · rw [hk.tree.user_of_line hu (hk.tree.line hu) r hmem] at huser
        exact absurd huser Bool.false_ne_true
    · exact fun heq => Or.inl heq.symm
  have hnodup : (users recs).Nodup := (List.Nodup.of_map _ hk.addrs).filter _
  have hcount := List.count_eq_one_of_mem hnodup (List.mem_filter.mpr ⟨hr, huser⟩)
  rw [honly, List.filter_eq, hcount]
  rfl

/-- An account below the root gains the records of the users below it. -/
theorem gains_of_account (hk : Kept recs root nextAddr) {r : Assoc} (hr : r ∈ recs)
    (haccount : r.user = none) (hne : r.parentId ≠ 0) :
    (users recs).filter (fun u => r.addr ∈ lineBelowRoot recs u) =
      recs.filter fun u => u.user.isSome && below recs u r := by
  rw [users, List.filter_filter]
  refine List.filter_congr fun u hu => ?_
  rw [Bool.and_comm]
  cases huser : u.user.isSome with
  | false => rfl
  | true =>
    rw [Bool.true_and, Bool.true_and, Bool.eq_iff_iff, decide_eq_true_iff,
      mem_lineBelowRoot hk hu hr, hk.tree.below_iff hu hr]
    constructor
    · rintro (rfl | ⟨hmem, -⟩)
      · rw [haccount] at huser
        exact absurd huser Bool.false_ne_true
      · exact hmem
    · exact fun hmem => Or.inr ⟨hmem, hne⟩

end Gains

/-- The list read back into the records with no usage. -/
def readBack (recs : List Assoc) : List Assoc :=
  withUsed (fun r => (resetUsage r).used + gained (users recs) (lineBelowRoot recs) whole r.addr)
    recs

theorem restored_readBack {recs : List Assoc} {root : Option Nat} {nextAddr : Nat}
    (hk : Kept recs root nextAddr) : List.Forall₂ (Restored recs) recs (readBack recs) := by
  have hraw : ∀ r : Assoc, ((resetUsage r).used +
      gained (users recs) (lineBelowRoot recs) whole r.addr).usageRaw =
      (((users recs).filter fun u => r.addr ∈ lineBelowRoot recs u).map
        fun u => (⌊u.used.usageRaw⌋ : ℚ)).sum := fun r =>
    (zero_add _).trans (gained_field Used.usageRaw rfl fun _ _ => rfl)
  have hwall : ∀ r : Assoc, ((resetUsage r).used +
      gained (users recs) (lineBelowRoot recs) whole r.addr).grpUsedWall =
      (((users recs).filter fun u => r.addr ∈ lineBelowRoot recs u).map
        fun u => (⌊u.used.grpUsedWall⌋ : ℚ)).sum := fun r =>
    (zero_add _).trans (gained_field Used.grpUsedWall rfl fun _ _ => rfl)
  rw [readBack, withUsed, List.forall₂_map_right_iff, List.forall₂_same]
  intro r hr
  refine ⟨rfl, fun huser => ⟨?_, ?_⟩, fun haccount hne => ⟨?_, ?_⟩⟩
  · exact (hraw r).trans (by rw [gains_of_user hk hr huser, List.map_singleton, List.sum_singleton])
  · exact (hwall r).trans
      (by rw [gains_of_user hk hr huser, List.map_singleton, List.sum_singleton])
  · exact (hraw r).trans (by rw [gains_of_account hk hr haccount hne])
  · exact (hwall r).trans (by rw [gains_of_account hk hr haccount hne])

/-- What is written of a list is read back into it. -/
theorem readBack_of_file {m : Mgr} {recs : List Assoc} (hlist : m.assocList = some recs)
    (hk : Kept recs m.rootAssoc m.nextAddr) (hrange : ∀ u ∈ users recs, InRange u)
    {highBufferSize : Int} (hpos : 0 < highBufferSize) (hint : highBufferSize < 2147483648)
    (now : Int64) (hcount : (users recs).length ≤ 134216703) :
    ∃ data, dumpAssocUsage highBufferSize now m = some data ∧
      loadAssocUsage data { m with assocList := some (recs.map resetUsage) } =
        some (.success, { m with assocList := some (readBack recs) }) := by
  obtain ⟨hdump, hsize⟩ := dumpAssocUsage_eq hlist hrange hpos hint now hcount
  exact ⟨_, hdump, loadAssocUsage_eq hk hrange (fun r => (resetUsage r).used) now hsize⟩

/-- The root, an account and a user with half a minute. -/
def halfRecs : List Assoc :=
  (smallMgr.assocList.getD []).map fun r => { r with used := { oneJob with grpUsedWall := 1 / 2 } }

/-- The manager with these records. -/
def halfMgr : Mgr := { smallMgr with assocList := some halfRecs }

theorem halfMgr_kept : Kept halfRecs halfMgr.rootAssoc halfMgr.nextAddr := by
  refine ⟨by decide +kernel, ?_, by decide +kernel, by decide +kernel, by decide +kernel⟩
  unfold Linked
  decide +kernel

theorem halfMgr_inRange : ∀ u ∈ users halfRecs, InRange u := by
  intro u hu
  have hused : u.used = { oneJob with grpUsedWall := 1 / 2 } := by
    obtain ⟨r, -, rfl⟩ := List.mem_map.mp (List.mem_filter.mp hu).1
    rfl
  constructor <;>
  · rw [hused]
    norm_num [oneJob]

end Slurm.AssocMgr
