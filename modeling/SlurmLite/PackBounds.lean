import SlurmLite.Pack

/-!
# Bounds of the buffer

What the packing operations do to a buffer when they have to grow it. The room is compared
in `uint32_t` arithmetic: the limit less the data can wrap to a large number, and so can
the size with the data. An array is packed element by element, each with a limit of its
own, so that some are written and others are not.

* **Operations** (`Op`): those of `Pack`, `pack16_array` and `grow_buf`.
* **Limits** (`Grows`, `Exceeds`, `Refused`): the growth of a buffer in plain numbers.
* **Writes** (`room_iff`, `write_refused`, `write_broken`): the three ways of one write.
* **Result** (`opKeeps_iff`): when an operation keeps the buffer within its limit and leaves
  it alone where it cannot; `runs_keep` for any run of operations.
-/

namespace Slurm.PackBounds

open Base.Bytes Base.CLib Slurm.Pack

/-! ## Operations -/

/-- `grow_buf`. -/
def growBuf (size : Int32) : Packer := fun b =>
  if b.size > uint32 ((maxBufSize : Int) - size.toInt) then some b
  else b.resize (uint32 (b.size + size.toInt))

/-- `pack16_array`. -/
def pack16Array (valp : List UInt16) : Packer :=
  packAll (pack32 (UInt32.ofNat valp.length) :: valp.map pack16)

/-- An operation on a buffer. -/
inductive Op
  | item (i : Item)
  | u16Array (valp : List UInt16)
  | grow (size : Int32)

namespace Op

/-- The operation. -/
def run : Op → Packer
  | item i => i.pack
  | u16Array valp => pack16Array valp
  | grow size => growBuf size

/-- The sizes of the data are `uint32_t` values. -/
def Fits : Op → Prop
  | item (.memArray valp) => valp.length < 4294967296
  | item i => i.Fits
  | u16Array valp => valp.length < 4294967296
  | grow _ => True

end Op

/-! ## Limits -/

/-- The writes fit, in a buffer of the given size and offset that grows for each that has
too little room: never past the limit, and by less than 2 GiB while it is smaller. -/
def Grows : Nat → Nat → List Chunk → Prop
  | _, _, [] => True
  | size, processed, c :: cs =>
    if c.bytes.length ≤ size - processed then Grows size (processed + c.bytes.length) cs
    else size + c.extra ≤ maxBufSize ∧ (size < 2147483648 → c.extra < 2147483648) ∧
      Grows (size + c.extra) (processed + c.bytes.length) cs

/-- For one of the writes the buffer would have to grow past the limit. -/
def Exceeds : Nat → Nat → List Chunk → Prop
  | _, _, [] => False
  | size, processed, c :: cs =>
    if c.bytes.length ≤ size - processed then Exceeds size (processed + c.bytes.length) cs
    else maxBufSize < size + c.extra ∨
      Exceeds (size + c.extra) (processed + c.bytes.length) cs

/-- The write has no room, its growth would pass the limit, and data that is itself larger
than the limit comes to a buffer near it. -/
def Refused (c : Chunk) (b : Buf) : Prop :=
  b.remaining < c.bytes.length ∧ maxBufSize < b.size + c.extra ∧
    (maxBufSize < c.extra → maxBufSize + 4294967296 < b.size + c.extra)

/-- What the packing functions grow a buffer by, for the bytes they write. -/
structure Shaped (c : Chunk) : Prop where
  le : c.bytes.length ≤ c.extra
  near : c.extra ≤ c.bytes.length + bufSize
  lt : c.extra < 4294967296 + bufSize

theorem shaped_num {bs : List UInt8} (h : bs.length ≤ bufSize) : Shaped (numChunk bs) :=
  ⟨h, Nat.le_add_left _ _, by simp [numChunk, bufSize]⟩

theorem shaped_mem {data : List UInt8} (h : data.length < 4294967296) :
    Shaped (memChunk data) := by
  have hlen : (memChunk data).bytes.length = 4 + data.length := by simp [memChunk]
  have hextra : (memChunk data).extra = data.length + 16384 := rfl
  refine ⟨?_, ?_, ?_⟩
  · omega
  · show _ ≤ _ + 16384
    omega
  · show _ < 4294967296 + 16384
    omega

/-! ## Writes -/

theorem processed_le (b : Buf) : b.processed ≤ b.size := b.inBounds

section Writes

variable {b : Buf} {c : Chunk}

/-- In plain numbers: what the comparison of `uint32_t` values lets through. -/
theorem room_iff {size processed : Nat} (hin : processed ≤ size) (hmax : size ≤ maxBufSize)
    (hc : Shaped c) :
    Room size processed c.extra c.bytes.length ↔ c.bytes.length ≤ size - processed ∨
      (size + c.extra ≤ maxBufSize ∧ (size < 2147483648 → c.extra < 2147483648)) := by
  obtain ⟨hle, hnear, hlt⟩ := hc
  unfold Room
  apply or_congr_right'
  intro hshort
  unfold uint32 maxBufSize
  unfold maxBufSize at hmax
  unfold bufSize at hnear hlt
  constructor
  · intro h
    obtain ⟨h1, h2, h3⟩ := h
    omega
  · intro h
    obtain ⟨h1, h2⟩ := h
    omega

theorem write_refused (h : Refused c b) (hmax : b.size ≤ maxBufSize) (hc : Shaped c) :
    b.write c.extra c.bytes = some (false, b) := by
  obtain ⟨hshort, hpast, hnear⟩ := h
  have hlt := hc.lt
  rw [Buf.write, if_pos hshort, if_pos]
  unfold uint32 maxBufSize
  unfold maxBufSize at hmax hpast hnear
  unfold bufSize at hlt
  omega

/-- A write that has no room and is not refused ends outside the buffer. -/
theorem write_broken (hroom : ¬ Room b.size b.processed c.extra c.bytes.length)
    (href : ¬ Refused c b) (hmax : b.size ≤ maxBufSize) (hc : Shaped c) :
    b.write c.extra c.bytes = none := by
  have hshort : b.remaining < c.bytes.length := by
    unfold Buf.remaining
    by_contra hfit
    exact hroom (Or.inl (Nat.not_lt.mp hfit))
  have hlet : ¬ b.size > uint32 ((maxBufSize : Int) - c.extra) := by
    intro hgt
    have hlt := hc.lt
    refine href ⟨hshort, ?_, ?_⟩
    all_goals
      unfold uint32 maxBufSize at hgt
      unfold maxBufSize
      unfold maxBufSize at hmax
      unfold bufSize at hlt
      omega
  cases Buf.write_of_not_room hroom with
  | inr hnone => exact hnone
  | inl hsome =>
    rw [Buf.write, if_pos hshort, if_neg hlet] at hsome
    cases hres : b.resize (uint32 (b.size + c.extra)) with
    | none => rw [hres] at hsome; cases hsome
    | some b1 =>
      rw [hres, Option.bind_eq_bind, Option.bind_some, Option.map_eq_some_iff] at hsome
      obtain ⟨b2, -, heq⟩ := hsome
      cases (Prod.mk.inj heq).1

/-- A write with room keeps the limit. -/
theorem write_room (hroom : Room b.size b.processed c.extra c.bytes.length)
    (hmax : b.size ≤ maxBufSize) (hc : Shaped c) :
    ∃ b', b.write c.extra c.bytes = some (true, b') ∧ b'.written = b.written ++ c.bytes ∧
      b'.processed = b.processed + c.bytes.length ∧ b'.size ≤ maxBufSize ∧
      b'.size = if c.bytes.length ≤ b.size - b.processed then b.size else b.size + c.extra := by
  obtain ⟨b', hwrite, hw, hs⟩ := Buf.write_of_room hroom
  have hp : b'.processed = b.processed + c.bytes.length := by
    rw [← Buf.length_written, hw, List.length_append, Buf.length_written]
  refine ⟨b', hwrite, hw, hp, ?_⟩
  rw [hs, sizeAfter]
  by_cases hfit : c.bytes.length ≤ b.size - b.processed
  · rw [if_pos hfit, if_pos hfit]
    exact ⟨hmax, rfl⟩
  · have hgrow := ((room_iff (processed_le b) hmax hc).mp hroom).resolve_left hfit
    have hsum : uint32 (b.size + c.extra) = b.size + c.extra := by
      have hle := hgrow.1
      unfold maxBufSize at hle
      unfold uint32
      omega
    rw [if_neg hfit, if_neg hfit, hsum]
    exact ⟨hgrow.1, rfl⟩

/-- A write never goes back. -/
theorem pack_le {b' : Buf} (hmax : b.size ≤ maxBufSize) (hc : Shaped c)
    (h : c.pack b = some b') : b.processed ≤ b'.processed ∧ b'.size ≤ maxBufSize := by
  unfold Chunk.pack at h
  by_cases hroom : Room b.size b.processed c.extra c.bytes.length
  · obtain ⟨b1, hwrite, -, hp, hs, -⟩ := write_room hroom hmax hc
    rw [hwrite] at h
    obtain rfl := Option.some.inj h
    exact ⟨hp ▸ Nat.le_add_right _ _, hs⟩
  · by_cases href : Refused c b
    · rw [write_refused href hmax hc] at h
      obtain rfl := Option.some.inj h
      exact ⟨Nat.le_refl _, hmax⟩
    · rw [write_broken hroom href hmax hc] at h
      cases h

end Writes

/-! ## Runs of writes -/

/-- Writes one after the other, a refused one passed over. -/
def packChunks (cs : List Chunk) : Packer := packAll (cs.map Chunk.pack)

theorem packChunks_cons (c : Chunk) (cs : List Chunk) (b : Buf) :
    packChunks (c :: cs) b = (c.pack b).bind (packChunks cs) := rfl

section Runs

variable {cs : List Chunk} {b : Buf}

theorem packChunks_le {b' : Buf} (hcs : ∀ c ∈ cs, Shaped c) (hmax : b.size ≤ maxBufSize)
    (h : packChunks cs b = some b') : b.processed ≤ b'.processed := by
  induction cs generalizing b with
  | nil =>
    obtain rfl := Option.some.inj h
    exact Nat.le_refl _
  | cons c cs ih =>
    rw [packChunks_cons, Option.bind_eq_some_iff] at h
    obtain ⟨b1, hfirst, hrest⟩ := h
    obtain ⟨hle, hmax'⟩ := pack_le hmax (hcs c List.mem_cons_self) hfirst
    have hle' := ih (fun d hd => hcs d (List.mem_cons_of_mem _ hd)) hmax' hrest
    omega

/-- Where all writes fit, they stand behind what was written. -/
theorem packChunks_of_grows (hcs : ∀ c ∈ cs, Shaped c) (hmax : b.size ≤ maxBufSize)
    (h : Grows b.size b.processed cs) :
    ∃ b', packChunks cs b = some b' ∧ b'.written = b.written ++ Chunk.flat cs ∧
      b'.size ≤ maxBufSize := by
  induction cs generalizing b with
  | nil => exact ⟨b, rfl, (List.append_nil _).symm, hmax⟩
  | cons c cs ih =>
    have hc := hcs c List.mem_cons_self
    have hnext (b1 : Buf) (hwrite : b.write c.extra c.bytes = some (true, b1))
        (hw : b1.written = b.written ++ c.bytes) (hs : b1.size ≤ maxBufSize)
        (hgrows : Grows b1.size b1.processed cs) :
        ∃ b', packChunks (c :: cs) b = some b' ∧
          b'.written = b.written ++ Chunk.flat (c :: cs) ∧ b'.size ≤ maxBufSize := by
      obtain ⟨b', hpack, hw', hs'⟩ :=
        ih (fun d hd => hcs d (List.mem_cons_of_mem _ hd)) hs hgrows
      refine ⟨b', ?_, ?_, hs'⟩
      · rw [packChunks_cons, Chunk.pack, hwrite]
        exact hpack
      · rw [hw', hw, List.append_assoc]
        rfl
    rw [Grows] at h
    split at h
    · rename_i hfit
      obtain ⟨b1, hwrite, hw, hp, hs, heq⟩ := write_room (Or.inl hfit) hmax hc
      rw [if_pos hfit] at heq
      exact hnext b1 hwrite hw hs (by rw [heq, hp]; exact h)
    · rename_i hfit
      obtain ⟨hle, hclear, hrest⟩ := h
      have hroom := (room_iff (processed_le b) hmax hc).mpr (Or.inr ⟨hle, hclear⟩)
      obtain ⟨b1, hwrite, hw, hp, hs, heq⟩ := write_room hroom hmax hc
      rw [if_neg hfit] at heq
      exact hnext b1 hwrite hw hs (by rw [heq, hp]; exact hrest)

theorem not_exceeds_of_grows {size processed : Nat} (h : Grows size processed cs) :
    ¬ Exceeds size processed cs := by
  induction cs generalizing size processed with
  | nil => exact id
  | cons c cs ih =>
    rw [Grows] at h
    rw [Exceeds]
    split at h
    · rename_i hfit
      rw [if_pos hfit]
      exact ih h
    · rename_i hfit
      rw [if_neg hfit]
      intro hex
      cases hex with
      | inl hpast => omega
      | inr hrest => exact ih h.2.2 hrest

/-- Writes that need not pass the limit and yet do not fit end outside the buffer. -/
theorem packChunks_broken (hcs : ∀ c ∈ cs, Shaped c) (hmax : b.size ≤ maxBufSize)
    (hgrows : ¬ Grows b.size b.processed cs) (hex : ¬ Exceeds b.size b.processed cs) :
    packChunks cs b = none := by
  induction cs generalizing b with
  | nil => exact absurd trivial hgrows
  | cons c cs ih =>
    have hc := hcs c List.mem_cons_self
    rw [Grows] at hgrows
    rw [Exceeds] at hex
    rw [packChunks_cons, Chunk.pack]
    have hnext (b1 : Buf) (hs : b1.size ≤ maxBufSize)
        (hg : ¬ Grows b1.size b1.processed cs) (he : ¬ Exceeds b1.size b1.processed cs) :
        packChunks cs b1 = none :=
      ih (fun d hd => hcs d (List.mem_cons_of_mem _ hd)) hs hg he
    by_cases hfit : c.bytes.length ≤ b.size - b.processed
    · rw [if_pos hfit] at hgrows hex
      obtain ⟨b1, hwrite, -, hp, hs, heq⟩ := write_room (Or.inl hfit) hmax hc
      rw [if_pos hfit] at heq
      rw [← heq, ← hp] at hgrows hex
      rw [hwrite]
      exact hnext b1 hs hgrows hex
    · rw [if_neg hfit] at hgrows hex
      rw [not_or] at hex
      by_cases hclear : b.size < 2147483648 → c.extra < 2147483648
      · have hle : b.size + c.extra ≤ maxBufSize := Nat.not_lt.mp hex.1
        have hroom := (room_iff (processed_le b) hmax hc).mpr (Or.inr ⟨hle, hclear⟩)
        obtain ⟨b1, hwrite, -, hp, hs, heq⟩ := write_room hroom hmax hc
        rw [if_neg hfit] at heq
        rw [← heq, ← hp] at hgrows hex
        rw [hwrite]
        exact hnext b1 hs (fun h => hgrows ⟨by omega, hclear, h⟩) hex.2
      · -- the gain of 2 GiB or more is cleared with a negative length
        have hroom : ¬ Room b.size b.processed c.extra c.bytes.length := by
          rw [room_iff (processed_le b) hmax hc]
          intro h
          exact hclear (h.resolve_left hfit).2
        rw [write_broken hroom (fun href => hex.1 href.2.1) hmax hc]
        rfl

end Runs

/-! ## Operations and their writes -/

/-- What the property asks of an operation that would pass the limit if `exceeds`: the
buffer stays within its limit, what was written stays, and an operation that would pass it
changes nothing. -/
def Keeps (p : Packer) (exceeds : Prop) (b : Buf) : Prop :=
  ∃ b', p b = some b' ∧ b'.size ≤ maxBufSize ∧ b.written <+: b'.written ∧ (exceeds → b' = b)

/-- The operation does the write `c`, and the writes `cs` when it is done. -/
structure Starts (p : Packer) (c : Chunk) (cs : List Chunk) : Prop where
  done : ∀ {b b' : Buf}, b.write c.extra c.bytes = some (true, b') → p b = packChunks cs b'
  broken : ∀ {b : Buf}, b.write c.extra c.bytes = none → p b = none

theorem starts_packChunks (c : Chunk) (cs : List Chunk) :
    Starts (packChunks (c :: cs)) c cs := by
  constructor
  · intro b b' h
    rw [packChunks_cons, Chunk.pack, h]
    rfl
  · intro b h
    rw [packChunks_cons, Chunk.pack, h]
    rfl

theorem keeps_of_unchanged {p : Packer} {b : Buf} (h : p b = some b)
    (hmax : b.size ≤ maxBufSize) {exceeds : Prop} : Keeps p exceeds b :=
  ⟨b, h, hmax, List.prefix_rfl, fun _ => rfl⟩

section Starts

variable {p : Packer} {c : Chunk} {cs : List Chunk} {b : Buf}

theorem keeps_of_grows (hp : Starts p c cs) (hcs : ∀ d ∈ c :: cs, Shaped d)
    (hmax : b.size ≤ maxBufSize) (h : Grows b.size b.processed (c :: cs)) :
    Keeps p (Exceeds b.size b.processed (c :: cs)) b := by
  obtain ⟨b', hpack, hw, hs⟩ := packChunks_of_grows hcs hmax h
  have hrun : p b = some b' := by
    rw [← hpack, packChunks_cons, Chunk.pack]
    cases hwrite : b.write c.extra c.bytes with
    | none => rw [hp.broken hwrite]; rfl
    | some r =>
      obtain ⟨ok, b1⟩ := r
      cases ok with
      | true => rw [hp.done hwrite]; rfl
      | false =>
        -- the first write has room
        have hroom : Room b.size b.processed c.extra c.bytes.length := by
          rw [room_iff (processed_le b) hmax (hcs c List.mem_cons_self)]
          rw [Grows] at h
          split at h
          · rename_i hfit
            exact Or.inl hfit
          · exact Or.inr ⟨h.1, h.2.1⟩
        obtain ⟨b2, hwrite', -⟩ := Buf.write_of_room hroom
        rw [hwrite'] at hwrite
        cases hwrite
  refine ⟨b', hrun, hs, ?_, ?_⟩
  · rw [hw]
    exact List.prefix_append _ _
  · intro hex
    exact absurd hex (not_exceeds_of_grows h)

/-- An operation whose first write is done, and not all the others, has changed the
buffer. -/
theorem grows_of_keeps (hp : Starts p c cs) (hcs : ∀ d ∈ c :: cs, Shaped d)
    (hmax : b.size ≤ maxBufSize) (hpos : cs ≠ [] → 1 ≤ c.bytes.length) (href : ¬ Refused c b)
    (h : Keeps p (Exceeds b.size b.processed (c :: cs)) b) :
    Grows b.size b.processed (c :: cs) := by
  obtain ⟨b', hrun, -, -, hsame⟩ := h
  have hc := hcs c List.mem_cons_self
  have hrest : ∀ d ∈ cs, Shaped d := fun d hd => hcs d (List.mem_cons_of_mem _ hd)
  by_cases hroom : Room b.size b.processed c.extra c.bytes.length
  · obtain ⟨b1, hwrite, -, hproc, hs, heq⟩ := write_room hroom hmax hc
    rw [hp.done hwrite] at hrun
    by_contra hgrows
    by_cases hex : Exceeds b.size b.processed (c :: cs)
    · -- it has passed its first write, so the offset has moved
      have hle := packChunks_le hrest hs hrun
      have hne : cs ≠ [] := by
        intro hnil
        subst hnil
        rw [room_iff (processed_le b) hmax hc] at hroom
        rw [Grows] at hgrows
        split at hgrows
        · exact hgrows trivial
        · rename_i hfit
          have hgrow := hroom.resolve_left hfit
          exact hgrows ⟨hgrow.1, hgrow.2, trivial⟩
      have hlen := hpos hne
      have hback : b'.processed = b.processed := by rw [hsame hex]
      omega
    · have hnone := packChunks_broken hcs hmax hgrows hex
      rw [packChunks_cons, Chunk.pack, hwrite] at hnone
      have hdone : packChunks cs b1 = none := hnone
      rw [hdone] at hrun
      cases hrun
  · rw [hp.broken (write_broken hroom href hmax hc)] at hrun
    cases hrun

end Starts

theorem not_grows_of_refused {c : Chunk} {cs : List Chunk} {b : Buf} (h : Refused c b) :
    ¬ Grows b.size b.processed (c :: cs) := by
  obtain ⟨hshort, hpast, -⟩ := h
  unfold Buf.remaining at hshort
  rw [Grows, if_neg (Nat.not_le.mpr hshort)]
  intro hgrows
  omega

theorem exceeds_of_refused {c : Chunk} {cs : List Chunk} {b : Buf} (h : Refused c b) :
    Exceeds b.size b.processed (c :: cs) := by
  obtain ⟨hshort, hpast, -⟩ := h
  unfold Buf.remaining at hshort
  rw [Exceeds, if_neg (Nat.not_le.mpr hshort)]
  exact Or.inl hpast

/-- Writes that are all refused leave the buffer. -/
theorem packChunks_refused {cs : List Chunk} {b : Buf} (hmax : b.size ≤ maxBufSize)
    (hcs : ∀ c ∈ cs, Shaped c ∧ Refused c b) : packChunks cs b = some b := by
  induction cs with
  | nil => rfl
  | cons c cs ih =>
    obtain ⟨hc, href⟩ := hcs c List.mem_cons_self
    rw [packChunks_cons, Chunk.pack, write_refused href hmax hc]
    exact ih fun d hd => hcs d (List.mem_cons_of_mem _ hd)

theorem starts_chunk (c : Chunk) : Starts c.pack c [] := by
  constructor
  · intro b b' h
    rw [Chunk.pack, h]
    rfl
  · intro b h
    rw [Chunk.pack, h]
    rfl

theorem pack_refused {c : Chunk} {b : Buf} (hmax : b.size ≤ maxBufSize) (hc : Shaped c)
    (h : Refused c b) : c.pack b = some b := by
  rw [Chunk.pack, write_refused h hmax hc]
  rfl

/-! ## Packing operations -/

/-- An operation as its first write and the others; refused the first one, it stops or has
the others refused too. -/
structure Writes (p : Packer) (c : Chunk) (cs : List Chunk) : Prop where
  shaped : ∀ d ∈ c :: cs, Shaped d
  starts : Starts p c cs
  pos : cs ≠ [] → 1 ≤ c.bytes.length
  stops : ∀ {b : Buf}, b.size ≤ maxBufSize → Refused c b → p b = some b

theorem Writes.keeps_iff {p : Packer} {c : Chunk} {cs : List Chunk} (h : Writes p c cs)
    {b : Buf} (hmax : b.size ≤ maxBufSize) :
    Keeps p (Exceeds b.size b.processed (c :: cs)) b ↔
      Grows b.size b.processed (c :: cs) ∨ Refused c b := by
  constructor
  · intro hkeeps
    by_cases href : Refused c b
    · exact Or.inr href
    · exact Or.inl (grows_of_keeps h.starts h.shaped hmax h.pos href hkeeps)
  · intro hsound
    cases hsound with
    | inl hgrows => exact keeps_of_grows h.starts h.shaped hmax hgrows
    | inr href => exact keeps_of_unchanged (h.stops hmax href) hmax

/-- An operation of one write. -/
theorem writes_chunk {c : Chunk} (hc : Shaped c) : Writes c.pack c [] := by
  refine ⟨?_, starts_chunk c, fun h => absurd rfl h, fun hmax => pack_refused hmax hc⟩
  intro d hd
  rw [List.mem_singleton] at hd
  rwa [hd]

theorem packstr_eq {s : Option CString} (h : (strData s).length < 4294967296) :
    packstr s = (memChunk (strData s)).pack := by
  cases s with
  | none => rfl
  | some s =>
    have hlen : s.terminated.length < 4294967296 := h
    show packmem (s.terminated.take (uint32 s.terminated.length)) = _
    rw [uint32_of_lt hlen, List.take_length]
    rfl

theorem refused_num {bs bs' : List UInt8} (hlen : bs.length = bs'.length) {b : Buf}
    (h : Refused (numChunk bs) b) : Refused (numChunk bs') b := by
  obtain ⟨h1, h2, h3⟩ := h
  refine ⟨?_, h2, h3⟩
  show _ < bs'.length
  rw [← hlen]
  exact h1

theorem writes_pack32Array (vs : List UInt32) :
    Writes (pack32Array vs) (numChunk (toBe 4 (UInt32.ofNat vs.length).toNat))
      (vs.flatMap fun v => [numChunk (toBe 4 v.toNat)]) := by
  have hpack : pack32Array vs = packChunks (array32Chunks vs) := by
    have hmap : vs.map pack32 =
        (vs.flatMap fun v => [numChunk (toBe 4 v.toNat)]).map Chunk.pack := by
      rw [← List.map_eq_flatMap, List.map_map]
      rfl
    rw [pack32Array, hmap]
    rfl
  have hshaped : ∀ d ∈ array32Chunks vs, ∃ bs : List UInt8, bs.length = 4 ∧ d = numChunk bs := by
    intro d hd
    rw [array32Chunks, List.mem_cons, List.mem_flatMap] at hd
    cases hd with
    | inl hcount => exact ⟨_, length_toBe _ _, hcount⟩
    | inr helem =>
      obtain ⟨v, -, hv⟩ := helem
      exact ⟨_, length_toBe _ _, List.mem_singleton.mp hv⟩
  rw [hpack]
  refine ⟨?_, starts_packChunks _ _, fun _ => by simp [numChunk], ?_⟩
  · intro d hd
    obtain ⟨bs, hlen, rfl⟩ := hshaped d hd
    exact shaped_num (by rw [hlen]; decide)
  · intro b hmax href
    apply packChunks_refused hmax
    intro d hd
    obtain ⟨bs, hlen, rfl⟩ := hshaped d hd
    exact ⟨shaped_num (by rw [hlen]; decide), refused_num (by rw [length_toBe, hlen]) href⟩

/-- Refused the count, `packstr_array` stops. -/
theorem writes_packstrArray {ss : List (Option CString)}
    (hfit : ∀ s ∈ ss, (strData s).length < 4294967296) :
    Writes (packstrArray ss) (numChunk (toBe 4 ss.length))
      (ss.flatMap fun s => [memChunk (strData s)]) := by
  have hmap : ss.map packstr = (ss.flatMap fun s => [memChunk (strData s)]).map Chunk.pack := by
    rw [← List.map_eq_flatMap, List.map_map]
    apply List.map_congr_left
    intro s hs
    exact packstr_eq (hfit s hs)
  have hcount : Shaped (numChunk (toBe 4 ss.length)) := shaped_num (by simp [bufSize])
  have hrun (b : Buf) : packstrArray ss b =
      (b.write bufSize (toBe 4 ss.length)).bind fun r =>
        if r.1 then packAll (ss.map packstr) r.2 else some r.2 := rfl
  refine ⟨?_, ⟨?_, ?_⟩, fun _ => by simp [numChunk], ?_⟩
  · intro d hd
    rw [List.mem_cons, List.mem_flatMap] at hd
    cases hd with
    | inl heq => rwa [heq]
    | inr helem =>
      obtain ⟨s, hs, hd⟩ := helem
      rw [List.mem_singleton.mp hd]
      exact shaped_mem (hfit s hs)
  · intro b b' hwrite
    have hwrite' : b.write bufSize (toBe 4 ss.length) = some (true, b') := hwrite
    rw [hrun, hwrite', hmap]
    rfl
  · intro b hwrite
    have hwrite' : b.write bufSize (toBe 4 ss.length) = none := hwrite
    rw [hrun, hwrite']
    rfl
  · intro b hmax href
    have hwrite : b.write bufSize (toBe 4 ss.length) = some (false, b) :=
      write_refused href hmax hcount
    rw [hrun, hwrite]
    rfl

/-- Every item is packed by its writes. -/
theorem writes_item {i : Item} (hfit : Op.Fits (.item i)) :
    ∃ c cs, i.chunks = c :: cs ∧ Writes i.pack c cs := by
  cases i with
  | u8 val => exact ⟨_, [], rfl, writes_chunk (shaped_num (by simp [bufSize]))⟩
  | u16 val => exact ⟨_, [], rfl, writes_chunk (shaped_num (by simp [bufSize]))⟩
  | u32 val => exact ⟨_, [], rfl, writes_chunk (shaped_num (by simp [bufSize]))⟩
  | u64 val => exact ⟨_, [], rfl, writes_chunk (shaped_num (by simp [bufSize]))⟩
  | time val => exact ⟨_, [], rfl, writes_chunk (shaped_num (by simp [bufSize]))⟩
  | str s =>
    refine ⟨_, [], rfl, ?_⟩
    show Writes (packstr s) (memChunk (strData s)) []
    rw [packstr_eq hfit]
    exact writes_chunk (shaped_mem hfit)
  | mem valp => exact ⟨_, [], rfl, writes_chunk (shaped_mem hfit)⟩
  | strArray valp => exact ⟨_, _, rfl, writes_packstrArray hfit.2⟩
  | u32Array valp => exact ⟨_, _, rfl, writes_pack32Array valp⟩
  | memArray valp =>
    have hlen : valp.length < 4294967296 := hfit
    refine ⟨⟨valp.length + bufSize, valp⟩, [], rfl, writes_chunk ⟨?_, ?_, ?_⟩⟩
    · exact Nat.le_add_right _ _
    · exact Nat.le_refl _
    · exact Nat.add_lt_add_right hlen _

/-! ## `pack16_array` -/

/-- The write of the count. -/
def countChunk (valp : List UInt16) : Chunk :=
  numChunk (toBe 4 (UInt32.ofNat valp.length).toNat)

/-- The writes of the elements. -/
def elemChunks (valp : List UInt16) : List Chunk :=
  valp.flatMap fun v => [numChunk (toBe 2 v.toNat)]

section Array16

variable {valp : List UInt16} {b : Buf}

theorem pack16Array_eq (valp : List UInt16) :
    pack16Array valp = packChunks (countChunk valp :: elemChunks valp) := by
  have hmap : valp.map pack16 = (elemChunks valp).map Chunk.pack := by
    rw [elemChunks, ← List.map_eq_flatMap, List.map_map]
    rfl
  rw [pack16Array, hmap]
  rfl

theorem elemChunks_length {c : Chunk} (h : c ∈ elemChunks valp) :
    ∃ bs : List UInt8, bs.length = 2 ∧ c = numChunk bs := by
  rw [elemChunks, List.mem_flatMap] at h
  obtain ⟨v, -, hv⟩ := h
  exact ⟨_, length_toBe _ _, List.mem_singleton.mp hv⟩

theorem array16_shaped {c : Chunk} (h : c ∈ countChunk valp :: elemChunks valp) : Shaped c := by
  cases List.mem_cons.mp h with
  | inl hcount =>
    rw [hcount]
    exact shaped_num (by simp [bufSize])
  | inr helem =>
    obtain ⟨bs, hlen, rfl⟩ := elemChunks_length helem
    exact shaped_num (by rw [hlen]; decide)

theorem length_countChunk (valp : List UInt16) : (countChunk valp).bytes.length = 4 :=
  length_toBe _ _

/-- Refused its count, the array must have no element, or none that fits. -/
theorem keeps_array16_refused (hmax : b.size ≤ maxBufSize) (href : Refused (countChunk valp) b) :
    Keeps (pack16Array valp) (Exceeds b.size b.processed (countChunk valp :: elemChunks valp)) b ↔
      valp = [] ∨ b.remaining < 2 := by
  have hcount := pack_refused hmax (array16_shaped List.mem_cons_self) href
  have hrun : pack16Array valp b = packChunks (elemChunks valp) b := by
    rw [pack16Array_eq, packChunks_cons, hcount]
    rfl
  constructor
  · intro hkeeps
    obtain ⟨b', hpack, -, -, hsame⟩ := hkeeps
    rw [hrun] at hpack
    obtain rfl := hsame (exceeds_of_refused href)
    cases valp with
    | nil => exact Or.inl rfl
    | cons v vs =>
      right
      by_contra hfit
      -- the first element is written
      have hsplit : elemChunks (v :: vs) = numChunk (toBe 2 v.toNat) :: elemChunks vs := rfl
      have hshaped : ∀ d ∈ elemChunks vs, Shaped d := fun d hd =>
        array16_shaped (List.mem_cons_of_mem (countChunk vs) hd)
      have hlen : (numChunk (toBe 2 v.toNat)).bytes.length = 2 := length_toBe _ _
      have hroom : Room b'.size b'.processed (numChunk (toBe 2 v.toNat)).extra
          (numChunk (toBe 2 v.toNat)).bytes.length := by
        left
        unfold Buf.remaining at hfit
        omega
      obtain ⟨b1, hwrite, -, hp, hs, -⟩ :=
        write_room hroom hmax (shaped_num (by simp [bufSize]))
      rw [hsplit, packChunks_cons, Chunk.pack, hwrite] at hpack
      have hle := packChunks_le hshaped hs hpack
      omega
  · intro hnone
    apply keeps_of_unchanged _ hmax
    rw [hrun]
    cases hnone with
    | inl hnil => rw [hnil]; rfl
    | inr hshort =>
      apply packChunks_refused hmax
      intro d hd
      refine ⟨array16_shaped (List.mem_cons_of_mem _ hd), ?_⟩
      obtain ⟨bs, hlen, rfl⟩ := elemChunks_length hd
      exact ⟨by show _ < bs.length; omega, href.2.1, href.2.2⟩

theorem keeps_array16_iff (hmax : b.size ≤ maxBufSize) :
    Keeps (pack16Array valp) (Exceeds b.size b.processed (countChunk valp :: elemChunks valp)) b ↔
      Grows b.size b.processed (countChunk valp :: elemChunks valp) ∨
        (Refused (countChunk valp) b ∧ (valp = [] ∨ b.remaining < 2)) := by
  have hstarts : Starts (pack16Array valp) (countChunk valp) (elemChunks valp) := by
    rw [pack16Array_eq]
    exact starts_packChunks _ _
  have hshaped : ∀ d ∈ countChunk valp :: elemChunks valp, Shaped d :=
    fun d hd => array16_shaped hd
  by_cases href : Refused (countChunk valp) b
  · rw [keeps_array16_refused hmax href]
    simp only [href, not_grows_of_refused href, true_and, false_or]
  · simp only [href, false_and, or_false]
    constructor
    · intro hkeeps
      apply grows_of_keeps hstarts hshaped hmax _ href hkeeps
      intro _
      rw [length_countChunk]
      exact Nat.le_add_left 1 3
    · intro hgrows
      exact keeps_of_grows hstarts hshaped hmax hgrows

end Array16

/-! ## `grow_buf` -/

section Grow

variable {b : Buf} {size : Int32}

/-- The change is not negative, or small enough not to be refused and leaves what was
packed, or large enough to be refused. -/
def GrowSound (size : Int32) (b : Buf) : Prop :=
  0 ≤ size.toInt ∨ (-65536 < size.toInt ∧ (b.processed : Int) ≤ b.size + size.toInt) ∨
    (size.toInt ≤ -65536 ∧ -size.toInt - 65536 < b.size)

theorem resize_cleared {newsize : Nat} (h : int32 b.size ≥ 0 ∧ b.size < newsize ∧
    int32 (newsize - b.size) < 0) : b.resize newsize = none := if_pos h

theorem resize_shrunk {newsize : Nat} (hle : newsize ≤ b.size) (hin : b.processed ≤ newsize) :
    ∃ b', b.resize newsize = some b' ∧ b'.written = b.written ∧ b'.size = newsize := by
  have hlt := b.size_lt
  have hsize : newsize < 4294967296 := Nat.lt_of_le_of_lt hle hlt
  have hclear : ¬ (int32 b.size ≥ 0 ∧ b.size < newsize ∧ int32 (newsize - b.size) < 0) :=
    fun h => by omega
  refine ⟨_, (if_neg hclear).trans (dif_pos ⟨hin, hsize⟩), ?_, ?_⟩
  · have hnone : newsize - b.size = 0 := by omega
    simp only [Buf.written, hnone, List.replicate_zero, List.append_nil, List.take_take,
      Nat.min_eq_left hin]
  · have hlen : b.head.length = b.size := rfl
    simp only [Buf.size, List.length_append, List.length_take, List.length_replicate] at hle ⊢
    omega

theorem resize_short {newsize : Nat} (h : newsize < b.processed) : b.resize newsize = none := by
  unfold Buf.resize
  split
  · rfl
  · rw [dif_neg (fun hin => by omega)]

theorem keeps_resize {newsize : Nat} {exceeds : Prop} (hex : ¬ exceeds)
    (hres : ∃ b', b.resize newsize = some b' ∧ b'.written = b.written ∧ b'.size = newsize)
    (hle : newsize ≤ maxBufSize) : Keeps (fun b => b.resize newsize) exceeds b := by
  obtain ⟨b', hrun, hw, hs⟩ := hres
  refine ⟨b', hrun, by rw [hs]; exact hle, ?_, fun h => absurd h hex⟩
  rw [hw]

/-- A size below 0 wraps to one that is cleared with a negative length. -/
theorem resize_wrapped (hneg : (b.size : Int) + size.toInt < 0) (hsmall : b.size < 2147483648)
    (hlo : -2147483648 ≤ size.toInt) : b.resize (uint32 (b.size + size.toInt)) = none := by
  have hnew : (uint32 (b.size + size.toInt) : Int) = b.size + size.toInt + 4294967296 := by
    unfold uint32
    omega
  apply resize_cleared
  refine ⟨?_, by omega, ?_⟩
  · rw [int32_of_range (by omega) (by omega)]
    exact Int.natCast_nonneg _
  · have hgain : int32 ((uint32 (b.size + size.toInt) : Int) - b.size) = size.toInt := by
      rw [hnew]
      unfold int32
      rw [Int.bmod_def]
      split
      · omega
      · omega
    rw [hgain]
    omega

theorem keeps_grow_iff (hmax : b.size ≤ maxBufSize) :
    Keeps (growBuf size) ((maxBufSize : Int) < b.size + size.toInt) b ↔ GrowSound size b := by
  have hlo : -2147483648 ≤ size.toInt := size.le_toInt
  have hhi : size.toInt < 2147483648 := size.toInt_lt
  have hin := processed_le b
  have hlimit : maxBufSize = 4294901760 := rfl
  by_cases hrefuse : b.size > uint32 ((maxBufSize : Int) - size.toInt)
  · have hrun : growBuf size b = some b := if_pos hrefuse
    have hsound : GrowSound size b := by
      unfold GrowSound
      unfold uint32 at hrefuse
      omega
    exact iff_of_true (keeps_of_unchanged hrun hmax) hsound
  · have hrun : growBuf size b = b.resize (uint32 (b.size + size.toInt)) := if_neg hrefuse
    have hkeeps (exceeds : Prop) : Keeps (growBuf size) exceeds b ↔
        Keeps (fun b' => b'.resize (uint32 (b.size + size.toInt))) exceeds b := by
      unfold Keeps
      rw [hrun]
    have hbroken (hnone : b.resize (uint32 (b.size + size.toInt)) = none)
        (hsound : ¬ GrowSound size b) (exceeds : Prop) :
        Keeps (growBuf size) exceeds b ↔ GrowSound size b := by
      apply iff_of_false _ hsound
      intro hkeep
      obtain ⟨b', hsome, -⟩ := hkeep
      rw [hrun, hnone] at hsome
      cases hsome
    unfold uint32 at hrefuse
    by_cases hpos : 0 ≤ size.toInt
    · -- no room is refused, so the new size is within the limit
      have hnew : uint32 (b.size + size.toInt) = b.size + size.toInt.toNat := by
        unfold uint32
        omega
      obtain ⟨b', hres, hw, -, hs⟩ := @Buf.resize_eq b (b.size + size.toInt.toNat)
        (Nat.le_add_right _ _) (by omega) (fun _ => by omega)
      apply iff_of_true _ (Or.inl hpos)
      rw [hkeeps, hnew]
      exact keeps_resize (by omega) ⟨b', hres, hw, hs⟩ (by omega)
    -- a negative size passes the test: the buffer shrinks, or its size wraps
    · by_cases hnear : -65536 < size.toInt
      · by_cases hleft : (b.processed : Int) ≤ b.size + size.toInt
        · have hnew : uint32 (b.size + size.toInt) = ((b.size : Int) + size.toInt).toNat := by
            unfold uint32
            omega
          apply iff_of_true _ (Or.inr (Or.inl ⟨hnear, hleft⟩))
          rw [hkeeps, hnew]
          exact keeps_resize (by omega) (resize_shrunk (by omega) (by omega)) (by omega)
        · have hsound : ¬ GrowSound size b := by
            unfold GrowSound
            omega
          apply hbroken _ hsound
          by_cases hneg : (b.size : Int) + size.toInt < 0
          · exact resize_wrapped hneg (by omega) hlo
          · apply resize_short
            unfold uint32
            omega
      · have hsound : ¬ GrowSound size b := by
          unfold GrowSound
          omega
        apply hbroken _ hsound
        exact resize_wrapped (by omega) (by omega) hlo

end Grow

/-! ## Result -/

namespace Op

/-- The operation would have to grow the buffer past its limit. -/
def Exceeds (b : Buf) : Op → Prop
  | item i => PackBounds.Exceeds b.size b.processed i.chunks
  | u16Array valp =>
    PackBounds.Exceeds b.size b.processed (countChunk valp :: elemChunks valp)
  | grow size => (maxBufSize : Int) < b.size + size.toInt

/-- All of its writes fit, or its first one is refused, and with it the elements of an
array. -/
def Sound (b : Buf) : Op → Prop
  | item i => Grows b.size b.processed i.chunks ∨ ∃ c, i.chunks.head? = some c ∧ Refused c b
  | u16Array valp => Grows b.size b.processed (countChunk valp :: elemChunks valp) ∨
      (Refused (countChunk valp) b ∧ (valp = [] ∨ b.remaining < 2))
  | grow size => GrowSound size b

end Op

theorem keeps_item_iff {i : Item} {b : Buf} (hfit : Op.Fits (.item i))
    (hmax : b.size ≤ maxBufSize) :
    Keeps i.pack (Exceeds b.size b.processed i.chunks) b ↔ (Op.item i).Sound b := by
  obtain ⟨c, cs, hchunks, hwrites⟩ := writes_item hfit
  rw [Op.Sound, hchunks, hwrites.keeps_iff hmax]
  simp

/-- **Bounds of the buffer.** With data whose sizes are `uint32_t` values, an operation keeps
a buffer within its limit and what was packed before, and changes nothing where it would
pass the limit, if and only if it is sound. -/
theorem opKeeps_iff (op : Op) (b : Buf) (hfit : op.Fits) (hmax : b.size ≤ maxBufSize) :
    Keeps op.run (op.Exceeds b) b ↔ op.Sound b := by
  cases op with
  | item i => exact keeps_item_iff hfit hmax
  | u16Array valp => exact keeps_array16_iff hmax
  | grow size => exact keeps_grow_iff hmax

/-- The buffer of `init_buf(0)`. -/
def fresh : Buf :=
  { head := List.replicate bufSize 0, processed := 0, inBounds := Nat.zero_le _
    size_lt := by rw [List.length_replicate]; decide }

theorem fresh_size : fresh.size = bufSize := List.length_replicate

/-- A number packed into a new buffer. -/
theorem keeps_num : Keeps (Op.item (.u32 7)).run ((Op.item (.u32 7)).Exceeds fresh) fresh := by
  have hmax : fresh.size ≤ maxBufSize := by
    rw [fresh_size]
    decide
  apply (opKeeps_iff (.item (.u32 7)) fresh trivial hmax).mpr
  left
  show Grows fresh.size 0 [numChunk (toBe 4 7)]
  rw [fresh_size]
  simp [Grows, numChunk, bufSize]

/-- The data with `BUF_SIZE` make 2 to the 32, which is no growth at all. -/
theorem not_keeps_of_length {valp : List UInt8} (hlen : valp.length = 4294950912) {b : Buf}
    (hsize : b.size = 16384) :
    ¬ Keeps (Op.item (.mem valp)).run ((Op.item (.mem valp)).Exceeds b) b := by
  have hbytes : (memChunk valp).bytes.length = 4294950916 := by
    show (toBe 4 valp.length ++ valp).length = _
    rw [List.length_append, length_toBe, hlen]
  have hextra : (memChunk valp).extra = 4294967296 := by
    show valp.length + 16384 = _
    rw [hlen]
  have hfit : Op.Fits (.item (.mem valp)) := by
    show valp.length < 4294967296
    omega
  have hmax : b.size ≤ maxBufSize := by
    rw [hsize]
    decide
  intro h
  have hsound := (keeps_item_iff hfit hmax).mp h
  simp only [Op.Sound, Item.chunks] at hsound
  cases hsound with
  | inl hgrows =>
    rw [Grows, hbytes, hsize, hextra, if_neg (by omega)] at hgrows
    have hle := hgrows.1
    unfold maxBufSize at hle
    omega
  | inr href =>
    obtain ⟨c, hc, -, -, hnear⟩ := href
    obtain rfl := Option.some.inj hc
    rw [hextra, hsize] at hnear
    unfold maxBufSize at hnear
    omega

/-- `packmem` of such data copies it past the end of a new buffer. -/
theorem not_keeps_wrapped :
    ¬ Keeps (Op.item (.mem (List.replicate 4294950912 0))).run
      ((Op.item (.mem (List.replicate 4294950912 0))).Exceeds fresh) fresh :=
  not_keeps_of_length List.length_replicate fresh_size

/-! ## Runs of operations -/

theorem initBuf_size {size : Int} {b : Buf} (h : initBuf size = some b) :
    b.size ≤ maxBufSize := by
  unfold initBuf at h
  split at h
  · cases h
  · rename_i hle
    by_cases hpos : size ≤ 0
    · simp only [if_pos hpos] at h
      rw [dif_pos (by decide)] at h
      obtain rfl := Option.some.inj h
      show (List.replicate bufSize (0 : UInt8)).length ≤ maxBufSize
      rw [List.length_replicate]
      decide
    · simp only [if_neg hpos] at h
      by_cases hlt : size.toNat < 4294967296
      · rw [dif_pos hlt] at h
        obtain rfl := Option.some.inj h
        show (List.replicate size.toNat (0 : UInt8)).length ≤ maxBufSize
        rw [List.length_replicate]
        unfold uint32 at hle
        omega
      · rw [dif_neg hlt] at h
        cases h

theorem createBuf_size {data : List UInt8} {b : Buf} (h : createBuf data = some b) :
    b.size ≤ maxBufSize := by
  unfold createBuf at h
  split at h
  · rename_i hle
    obtain rfl := Option.some.inj h
    exact hle
  · cases h

/-- Each operation of the run is sound for the buffer it finds. -/
def SoundRun : List Op → Buf → Prop
  | [], _ => True
  | op :: ops, b => op.Fits ∧ op.Sound b ∧ ∀ b', op.run b = some b' → SoundRun ops b'

/-- A run of sound operations keeps the limit and what was packed before it. -/
theorem runs_keep {ops : List Op} {b : Buf} (hmax : b.size ≤ maxBufSize)
    (h : SoundRun ops b) :
    ∃ b', packAll (ops.map Op.run) b = some b' ∧ b'.size ≤ maxBufSize ∧
      b.written <+: b'.written := by
  induction ops generalizing b with
  | nil => exact ⟨b, rfl, hmax, List.prefix_rfl⟩
  | cons op ops ih =>
    obtain ⟨hfit, hsound, hrest⟩ := h
    have hkeeps : Keeps op.run (op.Exceeds b) b := by
      cases op with
      | item i => exact (keeps_item_iff hfit hmax).mpr hsound
      | u16Array valp => exact (keeps_array16_iff hmax).mpr hsound
      | grow size => exact (keeps_grow_iff hmax).mpr hsound
    obtain ⟨b1, hrun, hs, hw, -⟩ := hkeeps
    obtain ⟨b', hruns, hs', hw'⟩ := ih hs (hrest b1 hrun)
    refine ⟨b', ?_, hs', hw.trans hw'⟩
    show (op.run b).bind (packAll (ops.map Op.run)) = some b'
    rw [hrun]
    exact hruns

end Slurm.PackBounds
