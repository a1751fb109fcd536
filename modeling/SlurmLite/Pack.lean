import SlurmLite.Base.Bytes
import SlurmLite.Base.CLib

/-!
# Packing

`struct slurm_buf` with the functions that write values at its offset and read
them back. A write that finds too little room grows the buffer by `BUF_SIZE`, or
by its data and `BUF_SIZE`, and is dropped when this would pass `MAX_BUF_SIZE`.

* **Writes** (`Buf.write`, `Room`): what a write does, and when it has room.
* **Packers** (`Encodes`): every packer is a run of writes, and puts their bytes
  behind what was written before when none is refused.
* **Unpackers** (`Reads`): what reads given bytes as a value.
* **Round trip** (`unpackItems_packItems`): what was packed without a refused
  write is read back, byte for byte.

`none` is undefined behaviour: memory written outside the buffer, or cleared
with a negative length.
-/

namespace Slurm.Pack

open Base.Bytes Base.CLib

/-- `BUF_SIZE`. -/
def bufSize : Nat := 16384

/-- `MAX_BUF_SIZE`. -/
def maxBufSize : Nat := 4294901760

/-- `struct slurm_buf`: `size` is the length of the data. -/
structure Buf where
  head : List UInt8
  processed : Nat
  inBounds : processed ≤ head.length
  size_lt : head.length < 4294967296
deriving DecidableEq

namespace Buf

/-- `size_buf`. -/
def size (b : Buf) : Nat := b.head.length

/-- `remaining_buf`. -/
def remaining (b : Buf) : Nat := b.size - b.processed

/-- The data before the offset. -/
def written (b : Buf) : List UInt8 := b.head.take b.processed

/-- The data from the offset on. -/
def rest (b : Buf) : List UInt8 := b.head.drop b.processed

@[simp] theorem length_written (b : Buf) : b.written.length = b.processed := by
  rw [written, List.length_take]
  exact Nat.min_eq_left b.inBounds

@[simp] theorem length_rest (b : Buf) : b.rest.length = b.remaining := List.length_drop

/-- `set_buf_offset` to 0. -/
def rewind (b : Buf) : Buf := { b with processed := 0, inBounds := Nat.zero_le _ }

/-- Nothing is written in a buffer at its start. -/
theorem written_at_start {b : Buf} (h : b.processed = 0) : b.written = [] := by
  rw [← List.length_eq_zero_iff, length_written, h]

/-- Bytes from the start of a buffer are there to be read when it is rewound. -/
theorem prefix_rest_rewind {b : Buf} {bytes : List UInt8} (h : b.written = bytes) :
    bytes <+: b.rewind.rest := by
  refine ⟨b.rest, ?_⟩
  rw [← h]
  exact List.take_append_drop _ _

end Buf

/-- `init_buf`. -/
def initBuf (size : Int) : Option Buf :=
  if uint32 size > maxBufSize then none
  else
    let n := if size ≤ 0 then bufSize else size.toNat
    if h : n < 4294967296 then
      some { head := List.replicate n 0, processed := 0, inBounds := Nat.zero_le _,
             size_lt := by rw [List.length_replicate]; exact h }
    else none

theorem initBuf_zero : ∃ b, initBuf 0 = some b ∧ b.size = bufSize ∧ b.processed = 0 :=
  ⟨_, rfl, List.length_replicate, rfl⟩

/-- `create_buf`. -/
def createBuf (data : List UInt8) : Option Buf :=
  if h : data.length ≤ maxBufSize then
    some { head := data, processed := 0, inBounds := Nat.zero_le _,
           size_lt := Nat.lt_of_le_of_lt h (by simp [maxBufSize]) }
  else none

namespace Buf

/-- `xrealloc` of the data. The old size is kept in an `int`, and the bytes gained
are cleared with an `int` length. -/
def resize (b : Buf) (newsize : Nat) : Option Buf :=
  if int32 b.size ≥ 0 ∧ b.size < newsize ∧ int32 (newsize - b.size) < 0 then none
  else if h : b.processed ≤ newsize ∧ newsize < 4294967296 then
    some { head := b.head.take newsize ++ List.replicate (newsize - b.size) 0
           processed := b.processed
           inBounds := by
             have := b.inBounds
             simp only [List.length_append, List.length_take, List.length_replicate, size]
             omega
           size_lt := by
             simp only [List.length_append, List.length_take, List.length_replicate, size]
             omega }
  else none

/-- `memcpy` to the offset, which moves past it. -/
def put (b : Buf) (bs : List UInt8) : Option Buf :=
  if h : b.processed + bs.length ≤ b.head.length then
    some { head := b.head.take b.processed ++ bs ++ b.head.drop (b.processed + bs.length)
           processed := b.processed + bs.length
           inBounds := by
             simp only [List.length_append, List.length_take, List.length_drop]
             omega
           size_lt := by
             have := b.size_lt
             simp only [List.length_append, List.length_take, List.length_drop]
             omega }
  else none

/-- The common part of the packing functions: room for `bs`, grown by `extra` when
there is too little, and the bytes. The flag is false when the buffer may not
grow any more; nothing is written then. -/
def write (b : Buf) (extra : Nat) (bs : List UInt8) : Option (Bool × Buf) :=
  if b.remaining < bs.length then
    if b.size > uint32 ((maxBufSize : Int) - extra) then some (false, b)
    else do
      let b ← b.resize (uint32 (b.size + extra))
      (b.put bs).map (true, ·)
  else (b.put bs).map (true, ·)

end Buf

/-! ## Packing functions -/

/-- A function that packs: `none` is undefined behaviour. -/
abbrev Packer : Type := Buf → Option Buf

/-- Packing one after the other. -/
def packAll (ps : List Packer) : Packer := fun b => ps.foldlM (fun b p => p b) b

/-- One write, with what the buffer grows by. -/
structure Chunk where
  extra : Nat
  bytes : List UInt8
deriving DecidableEq

/-- A write whose refusal goes unnoticed. -/
def Chunk.pack (c : Chunk) : Packer := fun b => (b.write c.extra c.bytes).map (·.2)

/-- `pack_time`. -/
def packTime (val : Int64) : Packer := Chunk.pack ⟨bufSize, toBe 8 val.toUInt64.toNat⟩

/-- `pack64`. -/
def pack64 (val : UInt64) : Packer := Chunk.pack ⟨bufSize, toBe 8 val.toNat⟩

/-- `pack32`. -/
def pack32 (val : UInt32) : Packer := Chunk.pack ⟨bufSize, toBe 4 val.toNat⟩

/-- `pack16`. -/
def pack16 (val : UInt16) : Packer := Chunk.pack ⟨bufSize, toBe 2 val.toNat⟩

/-- `pack8`. -/
def pack8 (val : UInt8) : Packer := Chunk.pack ⟨bufSize, [val]⟩

/-- `packmem`. -/
def packmem (valp : List UInt8) : Packer :=
  Chunk.pack ⟨valp.length + bufSize, toBe 4 valp.length ++ valp⟩

/-- `packstr`: the length with the NUL is a `uint32_t`, 0 for the NULL pointer. -/
def packstr (str : Option CString) : Packer :=
  match str with
  | none => packmem []
  | some s => packmem (s.terminated.take (uint32 s.terminated.length))

/-- `pack32_array`. -/
def pack32Array (valp : List UInt32) : Packer :=
  packAll (pack32 (UInt32.ofNat valp.length) :: valp.map pack32)

/-- `packstr_array`, which stops when the count is refused. -/
def packstrArray (valp : List (Option CString)) : Packer := fun b => do
  let r ← b.write bufSize (toBe 4 valp.length)
  if r.1 then packAll (valp.map packstr) r.2 else some r.2

/-- `packmem_array`. -/
def packmemArray (valp : List UInt8) : Packer := Chunk.pack ⟨valp.length + bufSize, valp⟩

/-! ## Unpacking functions -/

/-- A function that unpacks; no value is `SLURM_ERROR`. -/
def Unpacker (α : Type) : Type := Buf → Option α × Buf

instance : Monad Unpacker where
  pure a := fun b => (some a, b)
  bind u f := fun b =>
    match u b with
    | (some a, b) => f a b
    | (none, b) => (none, b)

/-- `n` bytes from the offset, which moves past them. -/
def unpackBytes (n : Nat) : Unpacker (List UInt8) := fun b =>
  if h : n ≤ b.remaining then
    (some (b.rest.take n),
      { b with
        processed := b.processed + n
        inBounds := by
          have := b.inBounds
          unfold Buf.remaining Buf.size at h
          omega })
  else (none, b)

/-- `unpack_time`. -/
def unpackTime : Unpacker Int64 := do
  let bs ← unpackBytes 8
  pure (UInt64.ofNat (ofBe bs)).toInt64

/-- `unpack64`. -/
def unpack64 : Unpacker UInt64 := do
  let bs ← unpackBytes 8
  pure (UInt64.ofNat (ofBe bs))

/-- `unpack32`. -/
def unpack32 : Unpacker UInt32 := do
  let bs ← unpackBytes 4
  pure (UInt32.ofNat (ofBe bs))

/-- `unpack16`. -/
def unpack16 : Unpacker UInt16 := do
  let bs ← unpackBytes 2
  pure (UInt16.ofNat (ofBe bs))

/-- `unpack8`. -/
def unpack8 : Unpacker UInt8 := do
  let bs ← unpackBytes 1
  pure (UInt8.ofNat (ofBe bs))

/-- `unpackmem_ptr`, `unpackmem`, `unpackmem_xmalloc` and `unpackmem_malloc`, which
differ in where they put the data; `none` is the NULL pointer of size 0. -/
def unpackmem : Unpacker (Option (List UInt8)) := do
  let size ← unpack32
  if size > 0 then
    let valp ← unpackBytes size.toNat
    pure (some valp)
  else pure none

/-- `unpackstr_xmalloc`. -/
def unpackstr : Unpacker (Option CString) := do
  let valp ← unpackmem
  pure (valp.map CString.ofBytes)

/-- `n` values, one after the other. -/
def unpackMany {α : Type} (u : Unpacker α) : Nat → Unpacker (List α)
  | 0 => pure []
  | n + 1 => do
    let a ← u
    let as ← unpackMany u n
    pure (a :: as)

/-- `unpack32_array`. -/
def unpack32Array : Unpacker (List UInt32) := do
  let size ← unpack32
  unpackMany unpack32 size.toNat

/-- `unpackstr_array`. -/
def unpackstrArray : Unpacker (List (Option CString)) := do
  let size ← unpack32
  if size > 0 then unpackMany unpackstr size.toNat else pure []

/-- `unpackmem_array` of a given size. -/
def unpackmemArray (size : Nat) : Unpacker (List UInt8) := unpackBytes size

/-! ## Writes -/

/-- There is room for `len` bytes in a buffer of the given size and offset, or it can
grow by `extra` to have it. -/
def Room (size processed extra len : Nat) : Prop :=
  len ≤ size - processed ∨
    (size ≤ uint32 ((maxBufSize : Int) - extra) ∧
      processed + len ≤ uint32 (size + extra) ∧
      (size < 2147483648 → uint32 (size + extra) < size + 2147483648))

instance (size processed extra len : Nat) : Decidable (Room size processed extra len) :=
  inferInstanceAs (Decidable (_ ∨ _ ∧ _ ∧ _))

/-- The size of the buffer after a write. -/
def sizeAfter (size processed extra len : Nat) : Nat :=
  if len ≤ size - processed then size else uint32 (size + extra)

namespace Buf

theorem put_eq {b : Buf} {bs : List UInt8} (h : bs.length ≤ b.remaining) :
    ∃ b', b.put bs = some b' ∧ b'.written = b.written ++ bs ∧ b'.size = b.size ∧
      b'.rest = b.rest.drop bs.length := by
  have hin := b.inBounds
  have hfit : b.processed + bs.length ≤ b.head.length := by
    unfold remaining size at h
    omega
  refine ⟨_, dif_pos hfit, ?_, ?_, ?_⟩
  · simp only [written]
    have hlen : (b.head.take b.processed ++ bs).length = b.processed + bs.length := by
      rw [List.length_append, List.length_take]
      omega
    rw [List.take_append_of_le_length (by omega), List.take_of_length_le (by omega)]
  · simp only [size, List.length_append, List.length_take, List.length_drop]
    omega
  · simp only [rest]
    have hlen : (b.head.take b.processed ++ bs).length = b.processed + bs.length := by
      rw [List.length_append, List.length_take]
      omega
    rw [List.drop_append_of_le_length (by omega), List.drop_of_length_le (by omega),
      List.nil_append, List.drop_drop]

theorem resize_eq {b : Buf} {newsize : Nat} (h1 : b.size ≤ newsize)
    (h2 : newsize < 4294967296) (h3 : b.size < 2147483648 → newsize < b.size + 2147483648) :
    ∃ b', b.resize newsize = some b' ∧ b'.written = b.written ∧ b'.processed = b.processed ∧
      b'.size = newsize := by
  have hin := b.inBounds
  have hlt := b.size_lt
  have hle : b.processed ≤ newsize := Nat.le_trans hin h1
  have hclear : ¬ (int32 b.size ≥ 0 ∧ b.size < newsize ∧ int32 (newsize - b.size) < 0) := by
    rintro ⟨hold, hgrow, hneg⟩
    have hsmall : b.size < 2147483648 := by
      by_contra hbig
      unfold size at hbig
      unfold int32 size at hold
      rw [Int.bmod_def] at hold
      split at hold <;> omega
    rw [int32_of_range (by omega) (by have := h3 hsmall; omega)] at hneg
    omega
  refine ⟨_, (if_neg hclear).trans (dif_pos ⟨hle, h2⟩), ?_, rfl, ?_⟩
  · simp only [written]
    rw [List.take_append_of_le_length (by rw [List.length_take]; omega), List.take_take,
      Nat.min_eq_left hle]
  · simp only [size, List.length_append, List.length_take, List.length_replicate]
    unfold size at h1
    omega

/-- A write with room puts the bytes behind what was written. -/
theorem write_of_room {b : Buf} {extra : Nat} {bs : List UInt8}
    (h : Room b.size b.processed extra bs.length) :
    ∃ b', b.write extra bs = some (true, b') ∧ b'.written = b.written ++ bs ∧
      b'.size = sizeAfter b.size b.processed extra bs.length := by
  unfold write sizeAfter
  by_cases hfit : bs.length ≤ b.size - b.processed
  · obtain ⟨b', hput, hw, hs, -⟩ := put_eq (b := b) hfit
    refine ⟨b', ?_, hw, ?_⟩
    · rw [if_neg (by unfold remaining; omega), hput, Option.map_some]
    · rw [if_pos hfit, hs]
  · obtain ⟨hmax, hfits, hclear⟩ := h.resolve_left hfit
    have hin := b.inBounds
    have hlt := uint32_lt (b.size + extra)
    have hsize : b.size ≤ uint32 (b.size + extra) := by
      unfold size at hfit hfits ⊢
      omega
    obtain ⟨b1, hres, hw1, hp1, hs1⟩ := resize_eq hsize hlt hclear
    have hroom : bs.length ≤ b1.remaining := by
      unfold remaining
      omega
    obtain ⟨b', hput, hw, hs, -⟩ := put_eq hroom
    refine ⟨b', ?_, by rw [hw, hw1], ?_⟩
    · rw [if_pos (by unfold remaining; omega), if_neg (by omega), hres, Option.bind_eq_bind,
        Option.bind_some, hput, Option.map_some]
    · rw [if_neg hfit, hs, hs1]

/-- A write without room is refused or undefined. -/
theorem write_of_not_room {b : Buf} {extra : Nat} {bs : List UInt8}
    (h : ¬ Room b.size b.processed extra bs.length) :
    b.write extra bs = some (false, b) ∨ b.write extra bs = none := by
  rw [Room, not_or] at h
  obtain ⟨hfit, hgrow⟩ := h
  unfold write
  rw [if_pos (by unfold remaining; omega)]
  by_cases hmax : b.size > uint32 ((maxBufSize : Int) - extra)
  · exact .inl (if_pos hmax)
  · right
    rw [if_neg hmax]
    have hlt := uint32_lt (b.size + extra)
    have hin := b.inBounds
    cases hres : b.resize (uint32 (b.size + extra)) with
    | none => rfl
    | some b1 =>
      -- the buffer grew, so the bytes do not fit the new size
      unfold resize at hres
      split at hres
      · cases hres
      · rename_i hclear
        split at hres
        · rename_i hle
          obtain rfl := Option.some.inj hres
          have hshort : uint32 (b.size + extra) < b.processed + bs.length := by
            by_contra hge
            refine hgrow ⟨by omega, by omega, fun hsmall => ?_⟩
            by_contra hbig
            refine hclear ⟨?_, by omega, ?_⟩
            · rw [int32_of_range (by omega) (by omega)]
              omega
            · have hneg : int32 ((uint32 (b.size + extra) : Int) - b.size) =
                  (uint32 (b.size + extra) : Int) - b.size - 4294967296 := by
                unfold int32
                rw [Int.bmod_def]
                split <;> omega
              rw [hneg]
              omega
          rw [Option.bind_eq_bind, Option.bind_some, put, dif_neg]
          · rfl
          · simp only [List.length_append, List.length_take, List.length_replicate]
            unfold size at hshort ⊢
            omega
        · cases hres

end Buf

/-! ## Runs of writes -/

/-- The number of bytes a run of writes has. -/
def Chunk.total (cs : List Chunk) : Nat := (cs.map fun c => c.bytes.length).sum

/-- The bytes of a run of writes. -/
def Chunk.flat (cs : List Chunk) : List UInt8 := cs.flatMap Chunk.bytes

theorem Chunk.length_flat (cs : List Chunk) : (flat cs).length = total cs := by
  simp [flat, total, List.length_flatMap]

@[simp] theorem Chunk.flat_singleton (c : Chunk) : flat [c] = c.bytes := by
  simp [flat]

@[simp] theorem Chunk.flat_append (cs ds : List Chunk) : flat (cs ++ ds) = flat cs ++ flat ds :=
  List.flatMap_append

@[simp] theorem Chunk.total_append (cs ds : List Chunk) :
    total (cs ++ ds) = total cs + total ds := by
  simp [total]

/-- Every write of a run has room, in a buffer of the given size and offset. -/
def Granted : Nat → Nat → List Chunk → Prop
  | _, _, [] => True
  | size, processed, c :: cs =>
    Room size processed c.extra c.bytes.length ∧
      Granted (sizeAfter size processed c.extra c.bytes.length)
        (processed + c.bytes.length) cs

/-- The first of two runs of writes. -/
theorem granted_of_append {size processed : Nat} {cs ds : List Chunk}
    (h : Granted size processed (cs ++ ds)) : Granted size processed cs := by
  induction cs generalizing size processed with
  | nil => trivial
  | cons c cs ih => exact ⟨h.1, ih h.2⟩

instance decidableGranted : ∀ (size processed : Nat) (cs : List Chunk),
    Decidable (Granted size processed cs)
  | _, _, [] => isTrue trivial
  | size, processed, c :: cs =>
    have := decidableGranted (sizeAfter size processed c.extra c.bytes.length)
      (processed + c.bytes.length) cs
    inferInstanceAs (Decidable (_ ∧ _))

/-- The buffer after a run of writes none of which is refused. -/
def Buf.run : Buf → List Chunk → Option Buf
  | b, [] => some b
  | b, c :: cs =>
    match b.write c.extra c.bytes with
    | some (true, b') => b'.run cs
    | _ => none

theorem Buf.run_cons {b b' : Buf} {c : Chunk} {cs : List Chunk}
    (h : b.write c.extra c.bytes = some (true, b')) : b.run (c :: cs) = b'.run cs := by
  rw [Buf.run, h]

theorem Buf.run_append {b : Buf} {cs ds : List Chunk} :
    b.run (cs ++ ds) = (b.run cs).bind fun b' => b'.run ds := by
  induction cs generalizing b with
  | nil => rfl
  | cons c cs ih =>
    rw [List.cons_append, Buf.run, Buf.run]
    cases b.write c.extra c.bytes with
    | none => rfl
    | some r =>
      obtain ⟨ok, b'⟩ := r
      cases ok with
      | true => exact ih
      | false => rfl

/-- A run is not refused exactly when every write has room, and then puts its bytes
behind what was written. -/
theorem Buf.run_spec {cs : List Chunk} : ∀ {b : Buf},
    (Granted b.size b.processed cs →
      ∃ b', b.run cs = some b' ∧ b'.written = b.written ++ Chunk.flat cs) ∧
    (¬ Granted b.size b.processed cs → b.run cs = none) := by
  induction cs with
  | nil =>
    intro b
    refine ⟨fun _ => ⟨b, rfl, ?_⟩, fun h => absurd trivial h⟩
    exact (List.append_nil _).symm
  | cons c cs ih =>
    intro b
    by_cases hroom : Room b.size b.processed c.extra c.bytes.length
    · obtain ⟨b1, hwrite, hw, hs⟩ := Buf.write_of_room hroom
      have hp : b1.processed = b.processed + c.bytes.length := by
        rw [← Buf.length_written, hw, List.length_append, Buf.length_written]
      rw [Buf.run_cons hwrite, Granted, ← hs, ← hp]
      refine ⟨fun h => ?_, fun h => ?_⟩
      · obtain ⟨b', hrun, hw'⟩ := (@ih b1).1 h.2
        refine ⟨b', hrun, ?_⟩
        rw [hw', hw, List.append_assoc]
        rfl
      · exact (@ih b1).2 fun h' => h ⟨hroom, h'⟩
    · refine ⟨fun h => absurd h.1 hroom, fun _ => ?_⟩
      rw [Buf.run]
      rcases Buf.write_of_not_room hroom with h | h <;> rw [h]

theorem Buf.run_of_granted {b : Buf} {cs : List Chunk} (h : Granted b.size b.processed cs) :
    ∃ b', b.run cs = some b' ∧ b'.written = b.written ++ Chunk.flat cs := Buf.run_spec.1 h

/-- Small writes have room as long as the buffer may grow. -/
theorem granted_of_small {cs : List Chunk} {size processed : Nat} (hle : processed ≤ size)
    (hcs : ∀ c ∈ cs, c.extra = bufSize ∧ c.bytes.length ≤ bufSize)
    (htotal : processed + Chunk.total cs ≤ maxBufSize - bufSize) : Granted size processed cs := by
  induction cs generalizing size processed with
  | nil => trivial
  | cons c cs ih =>
    obtain ⟨hextra, hlen⟩ := hcs c List.mem_cons_self
    have hcons : Chunk.total (c :: cs) = c.bytes.length + Chunk.total cs := List.sum_cons
    have hgrown : size < processed + c.bytes.length →
        uint32 (size + bufSize) = size + bufSize := by
      intro h
      unfold uint32
      unfold maxBufSize bufSize at htotal
      unfold bufSize
      omega
    rw [hcons] at htotal
    refine ⟨?_, ih ?_ (fun d hd => hcs d (List.mem_cons_of_mem _ hd)) (by omega)⟩
    · by_cases hroom : c.bytes.length ≤ size - processed
      · exact Or.inl hroom
      · have hlt : size < processed + c.bytes.length := by omega
        have hmax : uint32 ((maxBufSize : Int) - bufSize) = maxBufSize - bufSize := rfl
        refine Or.inr ?_
        rw [hextra, hgrown hlt, hmax]
        unfold bufSize at hlen ⊢
        exact ⟨by unfold bufSize at htotal; omega, by omega, fun _ => by omega⟩
    · unfold sizeAfter
      split
      · omega
      · rw [hextra, hgrown (by omega)]
        omega

/-- Writes over data that is there change neither its length nor what follows. -/
theorem Buf.run_inPlace {b : Buf} {cs : List Chunk} (h : Chunk.total cs ≤ b.remaining) :
    ∃ b', b.run cs = some b' ∧ b'.rest = b.rest.drop (Chunk.total cs) := by
  induction cs generalizing b with
  | nil => exact ⟨b, rfl, rfl⟩
  | cons c cs ih =>
    have htotal : Chunk.total (c :: cs) = c.bytes.length + Chunk.total cs := List.sum_cons
    rw [htotal] at h ⊢
    obtain ⟨b1, hput, -, -, hrest⟩ := @put_eq b c.bytes (by omega)
    have hwrite : b.write c.extra c.bytes = some (true, b1) := by
      rw [write, if_neg (by omega), hput, Option.map_some]
    have hroom : Chunk.total cs ≤ b1.remaining := by
      rw [← length_rest, hrest, List.length_drop, length_rest]
      omega
    obtain ⟨b', hrun, hrest'⟩ := ih hroom
    refine ⟨b', (Buf.run_cons hwrite).trans hrun, ?_⟩
    rw [hrest', hrest, List.drop_drop]

/-! ## What packers write -/

/-- What a run of writes does to the offset. -/
theorem Buf.run_processed {b b' : Buf} {cs : List Chunk} (h : b.run cs = some b') :
    b'.processed = b.processed + Chunk.total cs := by
  by_cases hg : Granted b.size b.processed cs
  · obtain ⟨b1, hrun, hw⟩ := Buf.run_of_granted hg
    obtain rfl := Option.some.inj (hrun.symm.trans h)
    rw [← Buf.length_written, hw, List.length_append, Buf.length_written, Chunk.length_flat]
  · rw [Buf.run_spec.2 hg] at h
    cases h

/-- The packer does the writes `cs`, all of them when none is refused. Else at least
two bytes are missing, when each write has as many. -/
structure Encodes (p : Packer) (cs : List Chunk) : Prop where
  ok : ∀ {b b' : Buf}, b.run cs = some b' → p b = some b'
  le : ∀ {b b' : Buf}, p b = some b' → b'.processed ≤ b.processed + Chunk.total cs
  short : ∀ {b b' : Buf}, (∀ c ∈ cs, 2 ≤ c.bytes.length) → b.run cs = none → p b = some b' →
    b'.processed + 2 ≤ b.processed + Chunk.total cs

theorem Encodes.nil : Encodes some [] := by
  refine ⟨fun h => h, fun h => ?_, fun _ h => ?_⟩
  · obtain rfl := Option.some.inj h
    exact Nat.le_add_right _ _
  · cases h

/-- A single write. -/
theorem Encodes.chunk (c : Chunk) : Encodes c.pack [c] := by
  have hcases : ∀ {b b' : Buf}, c.pack b = some b' →
      b.run [c] = some b' ∨ (b.run [c] = none ∧ b' = b) := by
    intro b b' hp
    unfold Chunk.pack at hp
    by_cases hroom : Room b.size b.processed c.extra c.bytes.length
    · obtain ⟨b1, hwrite, -, -⟩ := Buf.write_of_room hroom
      rw [hwrite] at hp
      exact .inl ((Buf.run_cons hwrite).trans hp)
    · refine .inr ⟨Buf.run_spec.2 fun h => hroom h.1, ?_⟩
      rcases Buf.write_of_not_room hroom with hw | hw
      · rw [hw] at hp
        exact (Option.some.inj hp).symm
      · rw [hw] at hp
        cases hp
  refine ⟨fun {b b'} h => ?_, fun {b b'} hp => ?_, fun {b b'} hlen h hp => ?_⟩
  · unfold Chunk.pack
    rw [Buf.run] at h
    cases hw : b.write c.extra c.bytes with
    | none => rw [hw] at h; cases h
    | some r =>
      obtain ⟨ok, b1⟩ := r
      cases ok with
      | true => rw [hw] at h; exact h
      | false => rw [hw] at h; cases h
  · rcases hcases hp with hrun | ⟨-, rfl⟩
    · exact Nat.le_of_eq (Buf.run_processed hrun)
    · exact Nat.le_add_right _ _
  · rcases hcases hp with hrun | ⟨-, rfl⟩
    · rw [h] at hrun
      cases hrun
    · have htwo := hlen c List.mem_cons_self
      have htotal : Chunk.total [c] = c.bytes.length := List.sum_singleton
      omega

/-- Packing one after the other. -/
theorem Encodes.bind {p q : Packer} {cs ds : List Chunk} (hp : Encodes p cs)
    (hq : Encodes q ds) : Encodes (fun b => (p b).bind q) (cs ++ ds) := by
  refine ⟨fun {b b'} h => ?_, fun {b b'} hpq => ?_, fun {b b'} hlen h hpq => ?_⟩
  · rw [Buf.run_append] at h
    cases hrun : b.run cs with
    | none => rw [hrun] at h; cases h
    | some b1 =>
      rw [hrun] at h
      show (p b).bind q = some b'
      rw [hp.ok hrun]
      exact hq.ok h
  · obtain ⟨b1, hp1, hq1⟩ := Option.bind_eq_some_iff.mp hpq
    have hle := hp.le hp1
    have hle' := hq.le hq1
    rw [Chunk.total_append]
    omega
  · obtain ⟨b1, hp1, hq1⟩ := Option.bind_eq_some_iff.mp hpq
    have hle := hp.le hp1
    have hle' := hq.le hq1
    rw [Chunk.total_append]
    rw [Buf.run_append] at h
    cases hrun : b.run cs with
    | none =>
      have := hp.short (fun c hc => hlen c (List.mem_append_left _ hc)) hrun hp1
      omega
    | some b2 =>
      obtain rfl := Option.some.inj ((hp.ok hrun).symm.trans hp1)
      rw [hrun] at h
      have := hq.short (fun c hc => hlen c (List.mem_append_right _ hc)) h hq1
      omega

theorem Encodes.packAll_nil : Encodes (packAll []) [] := Encodes.nil

theorem Encodes.packAll_cons {p : Packer} {ps : List Packer} {cs ds : List Chunk}
    (hp : Encodes p cs) (hps : Encodes (packAll ps) ds) :
    Encodes (packAll (p :: ps)) (cs ++ ds) := hp.bind hps

theorem Encodes.packAll_map {α : Type} {p : α → Packer} {cs : α → List Chunk}
    (h : ∀ a, Encodes (p a) (cs a)) (as : List α) :
    Encodes (packAll (as.map p)) (as.flatMap cs) := by
  induction as with
  | nil => exact Encodes.packAll_nil
  | cons a as ih => exact (h a).packAll_cons ih

/-- The write of a fixed-size number. -/
def numChunk (bs : List UInt8) : Chunk := ⟨bufSize, bs⟩

/-- The write of data with its length. -/
def memChunk (data : List UInt8) : Chunk :=
  ⟨data.length + bufSize, toBe 4 data.length ++ data⟩

/-- The data a string is packed as. -/
def strData (str : Option CString) : List UInt8 :=
  match str with
  | none => []
  | some s => s.terminated

theorem encodes_packstr (str : Option CString) :
    Encodes (packstr str) [memChunk (strData str)] := by
  cases str with
  | none => exact Encodes.chunk _
  | some s =>
    unfold packstr strData
    by_cases hlen : s.terminated.length < 4294967296
    · simp only []
      rw [uint32_of_lt hlen, List.take_length]
      exact Encodes.chunk _
    · -- a length that does not fit its type is cut, and there is no room for the string
      have hcut : uint32 s.terminated.length + 4294967296 ≤ s.terminated.length := by
        unfold uint32
        omega
      have hle : ∀ {b b' : Buf}, packmem (s.terminated.take (uint32 s.terminated.length)) b =
          some b' → b'.processed + 2 ≤ b.processed + Chunk.total [memChunk s.terminated] := by
        intro b b' hp
        have hle := (Encodes.chunk (memChunk (s.terminated.take
          (uint32 s.terminated.length)))).le hp
        simp only [Chunk.total, memChunk, List.map_cons, List.map_nil, List.sum_singleton,
          List.length_append, length_toBe, List.length_take] at hle ⊢
        omega
      refine ⟨fun {b b'} h => ?_, fun hp => Nat.le_of_add_right_le (hle hp), fun _ _ hp => hle hp⟩
      have hp := Buf.run_processed h
      have hb := b'.inBounds
      have hb' := b'.size_lt
      simp only [Chunk.total, memChunk, List.map_cons, List.map_nil, List.sum_singleton,
        List.length_append, length_toBe] at hp
      omega

/-- The writes of `pack32_array`. -/
def array32Chunks (vs : List UInt32) : List Chunk :=
  numChunk (toBe 4 (UInt32.ofNat vs.length).toNat) ::
    vs.flatMap fun v => [numChunk (toBe 4 v.toNat)]

theorem encodes_pack32Array (vs : List UInt32) : Encodes (pack32Array vs) (array32Chunks vs) :=
  (Encodes.chunk _).packAll_cons (Encodes.packAll_map (fun _ => Encodes.chunk _) vs)

/-- The writes of `packstr_array`. -/
def strArrayChunks (ss : List (Option CString)) : List Chunk :=
  numChunk (toBe 4 ss.length) :: ss.flatMap fun s => [memChunk (strData s)]

theorem encodes_packstrArray (ss : List (Option CString)) :
    Encodes (packstrArray ss) (strArrayChunks ss) := by
  have hall : Encodes (packAll (ss.map packstr)) (ss.flatMap fun s => [memChunk (strData s)]) :=
    Encodes.packAll_map encodes_packstr ss
  have hseq := (Encodes.chunk (numChunk (toBe 4 ss.length))).bind hall
  have hcases : ∀ b b' : Buf, packstrArray ss b = some b' →
      ((numChunk (toBe 4 ss.length)).pack b).bind (packAll (ss.map packstr)) = some b' ∨
        (b.run [numChunk (toBe 4 ss.length)] = none ∧ b' = b) := by
    intro b b' hp
    unfold packstrArray at hp
    unfold Chunk.pack numChunk
    by_cases hroom : Room b.size b.processed bufSize (toBe 4 ss.length).length
    · obtain ⟨b1, hwrite, -, -⟩ := Buf.write_of_room hroom
      rw [hwrite] at hp ⊢
      exact .inl hp
    · refine .inr ⟨Buf.run_spec.2 fun h => hroom h.1, ?_⟩
      rcases Buf.write_of_not_room hroom with hw | hw
      · rw [hw] at hp
        exact (Option.some.inj hp).symm
      · rw [hw] at hp
        cases hp
  refine ⟨fun {b b'} h => ?_, fun {b b'} hp => ?_, fun {b b'} hlen h hp => ?_⟩
  · have hok := hseq.ok h
    unfold packstrArray
    rw [strArrayChunks, Buf.run] at h
    unfold Chunk.pack numChunk at hok
    cases hw : b.write bufSize (toBe 4 ss.length) with
    | none => rw [hw] at hok; cases hok
    | some r =>
      obtain ⟨ok, b1⟩ := r
      cases ok with
      | true =>
        rw [hw] at hok
        exact hok
      | false =>
        simp only [numChunk, hw] at h
        cases h
  · rcases hcases b b' hp with hp' | ⟨-, rfl⟩
    · exact hseq.le hp'
    · exact Nat.le_add_right _ _
  · rcases hcases b b' hp with hp' | ⟨-, rfl⟩
    · exact hseq.short hlen h hp'
    · have htwo := hlen _ List.mem_cons_self
      have htotal : Chunk.total (strArrayChunks ss) = (numChunk (toBe 4 ss.length)).bytes.length +
          Chunk.total (ss.flatMap fun s => [memChunk (strData s)]) := List.sum_cons
      omega

/-! ## What unpackers read -/

/-- The unpacker reads the bytes `bs`, wherever they come next, as `x`. -/
def Reads {α : Type} (u : Unpacker α) (bs : List UInt8) (x : α) : Prop :=
  ∀ b : Buf, bs <+: b.rest → ∃ b', u b = (some x, b') ∧
    b'.processed = b.processed + bs.length ∧ b'.rest = b.rest.drop bs.length

namespace Reads

variable {α β : Type}

theorem pure (x : α) : Reads (Pure.pure x) [] x := fun b _ => ⟨b, rfl, rfl, rfl⟩

theorem bind {u : Unpacker α} {f : α → Unpacker β} {bs cs : List UInt8} {x : α} {y : β}
    (hu : Reads u bs x) (hf : Reads (f x) cs y) : Reads (u >>= f) (bs ++ cs) y := by
  intro b hpre
  obtain ⟨tail, htail⟩ := hpre
  rw [List.append_assoc] at htail
  obtain ⟨b1, hu1, hp1, hr1⟩ := hu b ⟨cs ++ tail, htail⟩
  rw [← htail, List.drop_left] at hr1
  obtain ⟨b2, hf2, hp2, hr2⟩ := hf b1 ⟨tail, hr1.symm⟩
  refine ⟨b2, ?_, ?_, ?_⟩
  · show (match u b with
      | (some a, b) => f a b
      | (none, b) => (none, b)) = _
    rw [hu1]
    exact hf2
  · rw [hp2, hp1, List.length_append, Nat.add_assoc]
  · rw [hr2, hr1, List.drop_left, ← htail, ← List.append_assoc, List.drop_left]

/-- The last step of a sequence. -/
theorem map {u : Unpacker α} {f : α → β} {bs : List UInt8} {x : α} (hu : Reads u bs x) :
    Reads (u >>= fun a => Pure.pure (f a)) bs (f x) := by
  have h := hu.bind (f := fun a => Pure.pure (f a)) (Reads.pure (f x))
  rwa [List.append_nil] at h

theorem bytes (bs : List UInt8) : Reads (unpackBytes bs.length) bs bs := by
  rintro b ⟨tail, htail⟩
  have hlen : bs.length ≤ b.remaining := by
    rw [← Buf.length_rest, ← htail, List.length_append]
    omega
  refine ⟨{ b with
    processed := b.processed + bs.length
    inBounds := by
      have := b.inBounds
      unfold Buf.remaining Buf.size at hlen
      omega }, ?_, rfl, ?_⟩
  · unfold unpackBytes
    rw [dif_pos hlen, ← htail, List.take_left]
  · simp only [Buf.rest, List.drop_drop]

theorem ofBytes {n : Nat} {bs : List UInt8} (h : bs.length = n) : Reads (unpackBytes n) bs bs :=
  h ▸ bytes bs

theorem time (val : Int64) : Reads unpackTime (toBe 8 val.toUInt64.toNat) val := by
  have h := (ofBytes (length_toBe 8 val.toUInt64.toNat)).map
    (f := fun bs => (UInt64.ofNat (ofBe bs)).toInt64)
  rwa [ofBe_toBe val.toUInt64.toNat_lt, UInt64.ofNat_toNat, Int64.toInt64_toUInt64] at h

theorem num64 (val : UInt64) : Reads unpack64 (toBe 8 val.toNat) val := by
  have h := (ofBytes (length_toBe 8 val.toNat)).map (f := fun bs => UInt64.ofNat (ofBe bs))
  rwa [ofBe_toBe val.toNat_lt, UInt64.ofNat_toNat] at h

theorem num32 (val : UInt32) : Reads unpack32 (toBe 4 val.toNat) val := by
  have h := (ofBytes (length_toBe 4 val.toNat)).map (f := fun bs => UInt32.ofNat (ofBe bs))
  rwa [ofBe_toBe val.toNat_lt, UInt32.ofNat_toNat] at h

theorem num16 (val : UInt16) : Reads unpack16 (toBe 2 val.toNat) val := by
  have h := (ofBytes (length_toBe 2 val.toNat)).map (f := fun bs => UInt16.ofNat (ofBe bs))
  rwa [ofBe_toBe val.toNat_lt, UInt16.ofNat_toNat] at h

theorem num8 (val : UInt8) : Reads unpack8 [val] val := by
  have h := (bytes [val]).map (f := fun bs => UInt8.ofNat (ofBe bs))
  have hval : UInt8.ofNat (ofBe [val]) = val := by simp [ofBe]
  rwa [hval] at h

theorem count {n : Nat} (h : n < 4294967296) : Reads unpack32 (toBe 4 n) (UInt32.ofNat n) := by
  have hread := num32 (UInt32.ofNat n)
  rwa [UInt32.toNat_ofNat_of_lt' h] at hread

/-- Data with its length. -/
theorem mem {data : List UInt8} (h : data.length < 4294967296) :
    Reads unpackmem (memChunk data).bytes (if data = [] then none else some data) := by
  have hnat := UInt32.toNat_ofNat_of_lt' h
  refine (count h).bind ?_
  by_cases hnil : data = []
  · subst hnil
    exact pure none
  · have hpos : UInt32.ofNat data.length > 0 := by
      have := List.length_pos_iff.mpr hnil
      rw [gt_iff_lt, UInt32.lt_iff_toNat_lt, hnat]
      exact this
    rw [if_pos hpos, if_neg hnil]
    exact (ofBytes hnat.symm).map

theorem str {s : Option CString} (h : (strData s).length < 4294967296) :
    Reads unpackstr (memChunk (strData s)).bytes s := by
  have hread := (mem h).map (f := fun valp => valp.map CString.ofBytes)
  cases s with
  | none => exact hread
  | some s =>
    have hne : strData (some s) ≠ [] := by simp [strData, CString.terminated]
    rw [if_neg hne, Option.map_some, strData, CString.ofBytes_terminated] at hread
    exact hread

theorem many {u : Unpacker α} {enc : α → List UInt8} {xs : List α}
    (h : ∀ x ∈ xs, Reads u (enc x) x) :
    Reads (unpackMany u xs.length) (xs.flatMap enc) xs := by
  induction xs with
  | nil => exact pure []
  | cons x xs ih =>
    rw [List.flatMap_cons]
    refine (h x (by simp)).bind ?_
    exact (ih fun y hy => h y (by simp [hy])).map

theorem array32 {vs : List UInt32} (h : vs.length < 4294967296) :
    Reads unpack32Array (Chunk.flat (array32Chunks vs)) vs := by
  have hnat := UInt32.toNat_ofNat_of_lt' h
  have hflat : Chunk.flat (array32Chunks vs) =
      toBe 4 (UInt32.ofNat vs.length).toNat ++ vs.flatMap fun v => toBe 4 v.toNat := by
    simp [Chunk.flat, array32Chunks, numChunk, List.flatMap_assoc]
  rw [hflat]
  refine (num32 _).bind ?_
  rw [hnat]
  exact many fun v _ => num32 v

theorem strArray {ss : List (Option CString)} (h : ss.length < 4294967296)
    (hall : ∀ s ∈ ss, (strData s).length < 4294967296) :
    Reads unpackstrArray (Chunk.flat (strArrayChunks ss)) ss := by
  have hnat := UInt32.toNat_ofNat_of_lt' h
  have hflat : Chunk.flat (strArrayChunks ss) =
      toBe 4 ss.length ++ ss.flatMap fun s => (memChunk (strData s)).bytes := by
    simp [Chunk.flat, strArrayChunks, numChunk, List.flatMap_assoc]
  rw [hflat]
  refine (count h).bind ?_
  by_cases hpos : UInt32.ofNat ss.length > 0
  · rw [if_pos hpos, hnat]
    exact many fun s hs => str (hall s hs)
  · have hnil : ss = [] := by
      rw [gt_iff_lt, UInt32.lt_iff_toNat_lt, hnat] at hpos
      exact List.length_eq_zero_iff.mp (by simpa using hpos)
    subst hnil
    exact pure []

end Reads

/-! ## Round trip -/

/-- A value to pack, with the function that packs it. -/
inductive Item
  | u8 (val : UInt8)
  | u16 (val : UInt16)
  | u32 (val : UInt32)
  | u64 (val : UInt64)
  | time (val : Int64)
  | str (s : Option CString)
  | mem (valp : List UInt8)
  | strArray (valp : List (Option CString))
  | u32Array (valp : List UInt32)
  | memArray (valp : List UInt8)
deriving DecidableEq

/-- What is read back: for `packmem_array` the reader has to know the size. -/
inductive Kind
  | u8
  | u16
  | u32
  | u64
  | time
  | str
  | mem
  | strArray
  | u32Array
  | memArray (size : Nat)
deriving DecidableEq

namespace Item

/-- The packing operation. -/
def pack : Item → Packer
  | u8 val => pack8 val
  | u16 val => pack16 val
  | u32 val => pack32 val
  | u64 val => pack64 val
  | time val => packTime val
  | str s => packstr s
  | mem valp => packmem valp
  | strArray valp => packstrArray valp
  | u32Array valp => pack32Array valp
  | memArray valp => packmemArray valp

/-- The writes of the packing operation. -/
def chunks : Item → List Chunk
  | u8 val => [numChunk [val]]
  | u16 val => [numChunk (toBe 2 val.toNat)]
  | u32 val => [numChunk (toBe 4 val.toNat)]
  | u64 val => [numChunk (toBe 8 val.toNat)]
  | time val => [numChunk (toBe 8 val.toUInt64.toNat)]
  | str s => [memChunk (strData s)]
  | mem valp => [memChunk valp]
  | strArray valp => strArrayChunks valp
  | u32Array valp => array32Chunks valp
  | memArray valp => [⟨valp.length + bufSize, valp⟩]

/-- The matching unpacking operation. -/
def kind : Item → Kind
  | u8 _ => .u8
  | u16 _ => .u16
  | u32 _ => .u32
  | u64 _ => .u64
  | time _ => .time
  | str _ => .str
  | mem _ => .mem
  | strArray _ => .strArray
  | u32Array _ => .u32Array
  | memArray valp => .memArray valp.length

/-- The packing functions take sizes as `uint32_t`. -/
def Fits : Item → Prop
  | str s => (strData s).length < 4294967296
  | mem valp => valp.length < 4294967296
  | strArray valp =>
    valp.length < 4294967296 ∧ ∀ s ∈ valp, (strData s).length < 4294967296
  | u32Array valp => valp.length < 4294967296
  | _ => True

theorem encodes (i : Item) : Encodes i.pack i.chunks := by
  cases i with
  | str s => exact encodes_packstr s
  | strArray valp => exact encodes_packstrArray valp
  | u32Array valp => exact encodes_pack32Array valp
  | _ => exact Encodes.chunk _

end Item

/-- The unpacking operation; data of size 0 is a NULL pointer. -/
def Kind.unpack : Kind → Unpacker Item
  | u8 => do
    let val ← unpack8
    pure (.u8 val)
  | u16 => do
    let val ← unpack16
    pure (.u16 val)
  | u32 => do
    let val ← unpack32
    pure (.u32 val)
  | u64 => do
    let val ← unpack64
    pure (.u64 val)
  | time => do
    let val ← unpackTime
    pure (.time val)
  | str => do
    let s ← unpackstr
    pure (.str s)
  | mem => do
    let valp ← unpackmem
    pure (.mem (valp.getD []))
  | strArray => do
    let valp ← unpackstrArray
    pure (.strArray valp)
  | u32Array => do
    let valp ← unpack32Array
    pure (.u32Array valp)
  | memArray size => do
    let valp ← unpackmemArray size
    pure (.memArray valp)

/-- The unpacking operation reads the writes of the packing operation as its value. -/
theorem Item.reads {i : Item} (h : i.Fits) : Reads i.kind.unpack (Chunk.flat i.chunks) i := by
  cases i with
  | u8 val => exact (Reads.num8 val).map
  | u16 val =>
    rw [Item.chunks, Chunk.flat_singleton]
    exact (Reads.num16 val).map
  | u32 val =>
    rw [Item.chunks, Chunk.flat_singleton]
    exact (Reads.num32 val).map
  | u64 val =>
    rw [Item.chunks, Chunk.flat_singleton]
    exact (Reads.num64 val).map
  | time val =>
    rw [Item.chunks, Chunk.flat_singleton]
    exact (Reads.time val).map
  | str s =>
    rw [Item.chunks, Chunk.flat_singleton]
    exact (Reads.str h).map
  | mem valp =>
    rw [Item.chunks, Chunk.flat_singleton]
    have hread := (Reads.mem h).map (f := fun valp => Item.mem (valp.getD []))
    split at hread
    · rename_i hnil
      subst hnil
      exact hread
    · exact hread
  | strArray valp => exact (Reads.strArray h.1 h.2).map
  | u32Array valp => exact (Reads.array32 h).map
  | memArray valp =>
    rw [Item.chunks, Chunk.flat_singleton]
    exact (Reads.bytes valp).map

/-- A run of packing operations. -/
def packItems (items : List Item) : Packer := packAll (items.map Item.pack)

/-- A run of unpacking operations. -/
def unpackItems : List Kind → Unpacker (List Item)
  | [] => pure []
  | k :: ks => do
    let i ← k.unpack
    let is ← unpackItems ks
    pure (i :: is)

theorem encodes_packItems (items : List Item) :
    Encodes (packItems items) (items.flatMap Item.chunks) :=
  Encodes.packAll_map Item.encodes items

/-- The unpacker reads what the packing operations write as `x`. -/
def Decodes {α : Type} (u : Unpacker α) (items : List Item) (x : α) : Prop :=
  (∀ i ∈ items, i.Fits) → Reads u (Chunk.flat (items.flatMap Item.chunks)) x

namespace Decodes

variable {α β : Type}

theorem pure (x : α) : Decodes (Pure.pure x) [] x := fun _ => Reads.pure x

theorem append {u : Unpacker α} {f : α → Unpacker β} {is js : List Item} {x : α} {y : β}
    (hu : Decodes u is x) (hf : Decodes (f x) js y) : Decodes (u >>= f) (is ++ js) y := by
  intro hfit
  rw [List.flatMap_append, Chunk.flat_append]
  exact (hu fun i hi => hfit i (List.mem_append_left _ hi)).bind
    (hf fun i hi => hfit i (List.mem_append_right _ hi))

theorem cons {i : Item} {u : Unpacker α} {f : α → Unpacker β} {is : List Item} {x : α} {y : β}
    (hu : i.Fits → Reads u (Chunk.flat i.chunks) x) (hf : Decodes (f x) is y) :
    Decodes (u >>= f) (i :: is) y := by
  intro hfit
  rw [List.flatMap_cons, Chunk.flat_append]
  exact (hu (hfit i List.mem_cons_self)).bind (hf fun j hj => hfit j (List.mem_cons_of_mem _ hj))

/-- The last step of a sequence. -/
theorem map {u : Unpacker α} {f : α → β} {is : List Item} {x : α} (hu : Decodes u is x) :
    Decodes (u >>= fun a => Pure.pure (f a)) is (f x) := fun hfit => (hu hfit).map

section Fields

variable {f16 : UInt16 → Unpacker β} {f32 : UInt32 → Unpacker β} {f64 : UInt64 → Unpacker β}
  {fTime : Int64 → Unpacker β} {fStr : Option CString → Unpacker β} {is : List Item} {y : β}

theorem u16 {val : UInt16} (h : Decodes (f16 val) is y) :
    Decodes (unpack16 >>= f16) (.u16 val :: is) y :=
  cons (i := .u16 val) (fun _ => by
    rw [Item.chunks, Chunk.flat_singleton]
    exact Reads.num16 val) h

theorem u32 {val : UInt32} (h : Decodes (f32 val) is y) :
    Decodes (unpack32 >>= f32) (.u32 val :: is) y :=
  cons (i := .u32 val) (fun _ => by
    rw [Item.chunks, Chunk.flat_singleton]
    exact Reads.num32 val) h

theorem u64 {val : UInt64} (h : Decodes (f64 val) is y) :
    Decodes (unpack64 >>= f64) (.u64 val :: is) y :=
  cons (i := .u64 val) (fun _ => by
    rw [Item.chunks, Chunk.flat_singleton]
    exact Reads.num64 val) h

theorem time {val : Int64} (h : Decodes (fTime val) is y) :
    Decodes (unpackTime >>= fTime) (.time val :: is) y :=
  cons (i := .time val) (fun _ => by
    rw [Item.chunks, Chunk.flat_singleton]
    exact Reads.time val) h

theorem str {s : Option CString} (h : Decodes (fStr s) is y) :
    Decodes (unpackstr >>= fStr) (.str s :: is) y :=
  cons (i := .str s) (fun hfit => by
    rw [Item.chunks, Chunk.flat_singleton]
    exact Reads.str hfit) h

end Fields

end Decodes

theorem decodes_unpackItems (items : List Item) :
    Decodes (unpackItems (items.map Item.kind)) items items := by
  induction items with
  | nil => exact Decodes.pure []
  | cons i is ih => exact Decodes.cons Item.reads ih.map

theorem mem_fits {data : List UInt8} (h : Chunk.total [memChunk data] < 4294967296) :
    data.length < 4294967296 := by
  simp only [Chunk.total, memChunk, List.map_cons, List.map_nil, List.sum_singleton,
    List.length_append] at h
  omega

theorem strArray_fits {ss : List (Option CString)}
    (h : Chunk.total (strArrayChunks ss) < 4294967296) :
    ss.length < 4294967296 ∧ ∀ s ∈ ss, (strData s).length < 4294967296 := by
  have htotal : Chunk.total (strArrayChunks ss) =
      4 + (ss.map fun s => 4 + (strData s).length).sum := by
    rw [← Chunk.length_flat]
    simp [Chunk.flat, strArrayChunks, numChunk, memChunk, List.flatMap_assoc, List.length_flatMap]
  have hlen : ss.length ≤ (ss.map fun s => 4 + (strData s).length).sum := by
    have hle := List.length_le_sum_of_one_le (ss.map fun s => 4 + (strData s).length)
      (by simp; omega)
    rwa [List.length_map] at hle
  refine ⟨by omega, fun s hs => ?_⟩
  have hmem := List.single_le_sum (l := ss.map fun s => 4 + (strData s).length)
    (by simp) (4 + (strData s).length) (List.mem_map_of_mem hs)
  omega

/-- A run of writes that ended within a buffer had sizes its functions can take. -/
theorem Item.fits_of_total {i : Item} (h : Chunk.total i.chunks < 4294967296) : i.Fits := by
  cases i with
  | str s => exact mem_fits h
  | mem valp => exact mem_fits h
  | strArray valp => exact strArray_fits h
  | u32Array valp =>
    have hlen : valp.length ≤ Chunk.total (array32Chunks valp) := by
      rw [← Chunk.length_flat]
      simp only [Chunk.flat, array32Chunks, numChunk, List.flatMap_cons, List.length_append,
        List.flatMap_assoc, List.flatMap_nil, List.append_nil, List.length_flatMap,
        length_toBe, List.map_const', List.sum_replicate, smul_eq_mul]
      omega
    exact Nat.lt_of_le_of_lt hlen h
  | _ => trivial

theorem total_lt_of_granted {b : Buf} {cs : List Chunk} (hg : Granted b.size b.processed cs) :
    Chunk.total cs < 4294967296 := by
  obtain ⟨b', hrun, -⟩ := Buf.run_of_granted hg
  have hproc := Buf.run_processed hrun
  have hin := b'.inBounds
  have hsize := b'.size_lt
  omega

theorem fits_of_granted {items : List Item} {b : Buf}
    (hg : Granted b.size b.processed (items.flatMap Item.chunks)) : ∀ i ∈ items, i.Fits := by
  intro i hi
  have hlt := total_lt_of_granted hg
  have hle : Chunk.total i.chunks ≤ Chunk.total (items.flatMap Item.chunks) := by
    obtain ⟨pre, post, rfl⟩ := List.append_of_mem hi
    simp only [List.flatMap_append, List.flatMap_cons, Chunk.total_append]
    omega
  exact Item.fits_of_total (Nat.lt_of_le_of_lt hle hlt)

/-- What is packed without a refused write is unpacked from any buffer in which the
same bytes come next, and just these bytes. -/
theorem Decodes.roundTrip {α : Type} {u : Unpacker α} {items : List Item} {x : α} {b : Buf}
    (h : Decodes u items x)
    (hg : Granted b.size b.processed (items.flatMap Item.chunks)) :
    ∃ b', packItems items b = some b' ∧
      b'.written = b.written ++ Chunk.flat (items.flatMap Item.chunks) ∧
      ∀ r : Buf, Chunk.flat (items.flatMap Item.chunks) <+: r.rest →
        ∃ r', u r = (some x, r') ∧
          r'.processed = r.processed + Chunk.total (items.flatMap Item.chunks) := by
  obtain ⟨b', hrun, hw⟩ := Buf.run_of_granted hg
  refine ⟨b', (encodes_packItems items).ok hrun, hw, fun r hpre => ?_⟩
  obtain ⟨r', hread, hproc, -⟩ := h (fits_of_granted hg) r hpre
  refine ⟨r', hread, ?_⟩
  rw [hproc, Chunk.length_flat]

/-- The bytes of the items are read back, just they, as `x`. -/
def ReadsBack {α : Type} (u : Unpacker α) (items : List Item) (x : α) (b : Buf) : Prop :=
  ∃ b' bytes, packItems items b = some b' ∧ b'.written = b.written ++ bytes ∧
    ∀ r : Buf, bytes <+: r.rest → ∃ r', u r = (some x, r') ∧
      r'.processed = r.processed + bytes.length

theorem Decodes.readsBack {α : Type} {u : Unpacker α} {items : List Item} {x : α} {b : Buf}
    (h : Decodes u items x) (hg : Granted b.size b.processed (items.flatMap Item.chunks)) :
    ReadsBack u items x b := by
  obtain ⟨b', hpack, hw, hread⟩ := h.roundTrip hg
  refine ⟨b', _, hpack, hw, fun r hpre => ?_⟩
  obtain ⟨r', hunpack, hproc⟩ := hread r hpre
  refine ⟨r', hunpack, ?_⟩
  rw [hproc, Chunk.length_flat]

/-- What is read back is what the bytes are decoded as. -/
theorem ReadsBack.eq_of_decodes {α : Type} {u : Unpacker α} {items : List Item} {x y : α}
    {b : Buf} (h : ReadsBack u items x b) (hd : Decodes u items y)
    (hg : Granted b.size b.processed (items.flatMap Item.chunks)) : x = y := by
  obtain ⟨b', bytes, hpack, hw, hread⟩ := h
  obtain ⟨b'', hpack', hw', hread'⟩ := hd.roundTrip hg
  obtain rfl := Option.some.inj (hpack.symm.trans hpack')
  obtain rfl := List.append_cancel_left (hw.symm.trans hw')
  -- both results are read from a buffer of just these bytes
  have hlen : (Chunk.flat (items.flatMap Item.chunks)).length < 4294967296 := by
    rw [Chunk.length_flat]
    exact total_lt_of_granted hg
  have hrest := @List.prefix_rfl _ (Buf.rest ⟨_, 0, Nat.zero_le _, hlen⟩)
  obtain ⟨r', hr', -⟩ := hread _ hrest
  obtain ⟨r'', hr'', -⟩ := hread' _ hrest
  exact Option.some.inj (Prod.mk.inj (hr'.symm.trans hr'')).1

/-- What is packed from the start of a buffer, without a refused write, is unpacked
from any buffer that starts with it: the same values, and just the bytes written. -/
theorem unpackItems_packItems {items : List Item} {b : Buf} (hb : b.processed = 0)
    (hg : Granted b.size b.processed (items.flatMap Item.chunks)) :
    ∃ b', packItems items b = some b' ∧
      b'.processed = Chunk.total (items.flatMap Item.chunks) ∧
      ∀ r : Buf, r.processed = 0 → b'.written <+: r.head →
        ∃ r', unpackItems (items.map Item.kind) r = (some items, r') ∧
          r'.processed = b'.processed := by
  obtain ⟨b', hpack, hw, hread⟩ := (decodes_unpackItems items).roundTrip hg
  rw [Buf.written_at_start hb, List.nil_append] at hw
  have hproc : b'.processed = Chunk.total (items.flatMap Item.chunks) := by
    rw [← Buf.length_written, hw, Chunk.length_flat]
  refine ⟨b', hpack, hproc, fun r hr hpre => ?_⟩
  have hrest : Chunk.flat (items.flatMap Item.chunks) <+: r.rest := by
    rw [Buf.rest, hr, ← hw]
    exact hpre
  obtain ⟨r', hunpack, hr'⟩ := hread r hrest
  refine ⟨r', hunpack, ?_⟩
  rw [hr', hr, hproc, Nat.zero_add]

/-- A buffer without room that grows twice. -/
theorem unpackItems_packItems_growing :
    ∃ b', packItems [.u32 7, .mem (List.replicate 16390 1), .strArray [none]]
        ⟨[], 0, Nat.le_refl 0, by decide⟩ = some b' ∧ b'.processed = 16406 ∧
      ∀ r : Buf, r.processed = 0 → b'.written <+: r.head →
        ∃ r', unpackItems [.u32, .mem, .strArray] r =
            (some [.u32 7, .mem (List.replicate 16390 1), .strArray [none]], r') ∧
          r'.processed = b'.processed := by
  have hlen : (memChunk (List.replicate 16390 (1 : UInt8))).bytes.length = 16394 := by
    rw [memChunk, List.length_append, length_toBe, List.length_replicate]
  have hextra : (memChunk (List.replicate 16390 (1 : UInt8))).extra = 32774 := by
    rw [memChunk, List.length_replicate]
    rfl
  have hg : Granted (Buf.size ⟨[], 0, Nat.le_refl 0, by decide⟩) 0
      ([Item.u32 7, .mem (List.replicate 16390 1), .strArray [none]].flatMap Item.chunks) := by
    show Room 0 0 bufSize 4 ∧ Room 16384 4 _ _ ∧ Granted _ _ _
    rw [hlen, hextra]
    decide
  obtain ⟨b', hpack, hproc, hread⟩ :=
    @unpackItems_packItems _ ⟨[], 0, Nat.le_refl 0, by decide⟩ rfl hg
  refine ⟨b', hpack, ?_, hread⟩
  rw [hproc]
  simp only [List.flatMap_cons, List.flatMap_nil, Item.chunks, List.append_nil,
    Chunk.total_append, strArrayChunks]
  rw [Chunk.total, List.map_cons, List.map_nil, List.sum_singleton, Chunk.total, List.map_cons,
    List.map_nil, List.sum_singleton, hlen]
  rfl

/-- Data that would fit below `MAX_BUF_SIZE` and still is refused, because the buffer
would grow by `BUF_SIZE` more than the data. -/
theorem unpackItems_packItems_refused :
    ∃ (items : List Item) (b b' : Buf), initBuf 0 = some b ∧
      Chunk.total (items.flatMap Item.chunks) < maxBufSize ∧
      packItems items b = some b' ∧ b'.processed = 0 ∧
      (unpackItems (items.map Item.kind) b').1 = some [.mem []] ∧ items ≠ [.mem []] := by
  have hlen : (List.replicate (maxBufSize - bufSize) (0 : UInt8)).length = maxBufSize - bufSize :=
    List.length_replicate
  have hrefused : ∀ data : List UInt8, data.length = maxBufSize - bufSize → ∀ b : Buf,
      b.size = bufSize → b.processed = 0 → packItems [.mem data] b = some b := by
    intro data hdata b hb hp
    have hwrite : b.write (memChunk data).extra (memChunk data).bytes = some (false, b) := by
      simp only [memChunk, Buf.write, hdata, Buf.remaining, hb, hp, List.length_append,
        length_toBe]
      rfl
    show ((b.write _ _).map (·.2)).bind some = some b
    rw [show b.write (data.length + bufSize) (toBe 4 data.length ++ data) = _ from hwrite]
    rfl
  refine ⟨[.mem (List.replicate (maxBufSize - bufSize) 0)], _, _, rfl, ?_,
    hrefused _ hlen _ List.length_replicate rfl, rfl, ?_, ?_⟩
  · simp only [List.flatMap_cons, List.flatMap_nil, Item.chunks, List.append_nil, Chunk.total,
      memChunk, List.map_cons, List.map_nil, List.sum_singleton, List.length_append,
      length_toBe, hlen]
    decide
  · decide +kernel
  · intro h
    have hnil := congrArg List.length (Item.mem.inj (List.cons.inj h).1)
    rw [hlen] at hnil
    cases hnil

end Slurm.Pack
