import SlurmLite.Base.CLib

/-!
# Host ranges

`struct hostrange_components` and the operations on it: one prefix, an
interval `lo..hi` of numeric suffixes, and the width they are printed with.

* **Widths** (`widthEquiv_spec`): `_width_equiv` accepts two widths when one of
  them prints the other range's lowest number unchanged, and then makes both
  equal to a width neither range can tell from its own (`Reprint`).
* **Names** (`HostRange.names`): the host names a range stands for. Every
  operation below is described by what it does to them.
-/

namespace Slurm.Hosts

open Base.Text Base.CLib

/-- `struct hostrange_components`. -/
structure HostRange where
  pfx : List Char
  lo : Nat
  hi : Nat
  width : Nat
  singlehost : Bool
deriving DecidableEq

/-- `hostrange_create_single`. -/
def hostrangeCreateSingle (p : List Char) : HostRange :=
  { pfx := p, lo := 0, hi := 0, width := 0, singlehost := true }

/-- `hostrange_create`. -/
def hostrangeCreate (p : List Char) (lo hi width : Nat) : HostRange :=
  { pfx := p, lo := lo, hi := hi, width := width, singlehost := false }

/-- `hostrange_count`: `hi - lo + 1` in `unsigned long`. -/
def hostrangeCount (hr : HostRange) : Nat :=
  if hr.singlehost then 1 else ulong (hr.hi - hr.lo + 1)

/-- `hostrange_copy`. -/
def hostrangeCopy (hr : HostRange) : HostRange :=
  if hr.singlehost then hostrangeCreateSingle hr.pfx
  else hostrangeCreate hr.pfx hr.lo hr.hi hr.width

/-- `_zero_padded`: the zeros needed to pad `num` to `width`. The source counts
the digits of `num` by repeated division. -/
def zeroPadded (num width : Nat) : Nat :=
  if width > ndigits num then width - ndigits num else 0

/-- `_width_equiv`: the result and the two widths as it leaves them. The
source's first test compares the two pointers, and they are equal only when a
range is compared with itself. -/
def widthEquiv (n wn m wm : Nat) : Bool × Nat × Nat :=
  let npad := zeroPadded n wn
  let nmpad := zeroPadded n wm
  let mpad := zeroPadded m wm
  let mnpad := zeroPadded m wn
  if npad ≠ nmpad ∧ mpad ≠ mnpad then (false, wn, wm)
  else if npad ≠ nmpad then
    if mpad = mnpad then (true, wn, wn) else (false, wn, wm)
  else
    if npad = nmpad then (true, wm, wm) else (false, wn, wm)

/-- `hostrange_width_combine`: the result and both ranges as it leaves them. -/
def hostrangeWidthCombine (h0 h1 : HostRange) : Bool × HostRange × HostRange :=
  let r := widthEquiv h0.lo h0.width h1.lo h1.width
  (r.1, { h0 with width := r.2.1 }, { h1 with width := r.2.2 })

/-- `hostrange_prefix_cmp`; `none` is the NULL pointer. -/
def hostrangePrefixCmp : Option HostRange → Option HostRange → Int
  | none, _ => 1
  | some _, none => -1
  | some h1, some h2 =>
    let retval := strcmp h1.pfx h2.pfx
    if retval = 0 then h2.singlehost.toNat - h1.singlehost.toNat else retval

/-- `hostrange_within_range`. -/
def hostrangeWithinRange (h1 h2 : Option HostRange) : Bool :=
  if hostrangePrefixCmp h1 h2 = 0 then
    match h1, h2 with
    | some a, some b => !(a.singlehost || b.singlehost)
    | _, _ => false
  else false

/-- `hostrange_cmp`: the result and both ranges, whose widths it may change.
The difference of the lower bounds is an `unsigned long` returned as `int`. -/
def hostrangeCmp (h1 h2 : HostRange) : Int × HostRange × HostRange :=
  let retval := hostrangePrefixCmp (some h1) (some h2)
  if retval = 0 then
    let c := hostrangeWidthCombine h1 h2
    (if c.1 then int32 (ulong (h1.lo - h2.lo)) else (h1.width : Int) - h2.width, c.2)
  else (retval, h1, h2)

/-- `hostrange_empty`. -/
def hostrangeEmpty (hr : HostRange) : Bool :=
  hr.hi < hr.lo || hr.hi = ulongMax

/-- `hostrange_pop`: the host popped, printed into `strlen(prefix) + width + 16`
bytes, and the range as it leaves it. -/
def hostrangePop (hr : HostRange) : Option (List Char) × HostRange :=
  if hr.singlehost then (some hr.pfx, { hr with lo := ulong (hr.lo + 1) })
  else if hostrangeCount hr > 0 then
    (some ((hr.pfx ++ padded hr.width hr.hi).take (hr.pfx.length + hr.width + 15)),
      { hr with hi := ulong (hr.hi - 1) })
  else (none, hr)

/-- `hostrange_shift`. -/
def hostrangeShift (hr : HostRange) : Option (List Char) × HostRange :=
  if hr.singlehost then (some hr.pfx, { hr with lo := ulong (hr.lo + 1) })
  else if hostrangeCount hr > 0 then
    (some ((hr.pfx ++ padded hr.width hr.lo).take (hr.pfx.length + hr.width + 15)),
      { hr with lo := ulong (hr.lo + 1) })
  else (none, hr)

/-- `hostrange_delete_host`: the greater part when the range is split, and the
range as it leaves it. -/
def hostrangeDeleteHost (hr : HostRange) (n : Nat) : Option HostRange × HostRange :=
  if n = hr.lo then (none, { hr with lo := ulong (hr.lo + 1) })
  else if n = hr.hi then (none, { hr with hi := ulong (hr.hi - 1) })
  else (some { hostrangeCopy hr with lo := ulong (n + 1) }, { hr with hi := ulong (n - 1) })

/-- `hostrange_join`: the number of duplicated hosts (`-1` when the ranges do
not join) and both ranges as it leaves them. -/
def hostrangeJoin (h1 h2 : HostRange) : Int × HostRange × HostRange :=
  if hostrangePrefixCmp (some h1) (some h2) = 0 then
    let c := hostrangeWidthCombine h1 h2
    if c.1 then
      if h1.singlehost && h2.singlehost then (1, c.2)
      else if h1.hi = ulong (h2.lo - 1) then (0, { c.2.1 with hi := h2.hi }, c.2.2)
      else if h1.hi ≥ h2.lo then
        if h1.hi < h2.hi then
          (int32 (ulong (h1.hi - h2.lo + 1)), { c.2.1 with hi := h2.hi }, c.2.2)
        else (int32 (hostrangeCount h2), c.2)
      else (-1, c.2)
    else (-1, h1, h2)
  else (-1, h1, h2)

/-! ## Host names -/

/-- The numeric suffixes of a range. -/
def HostRange.numbers (r : HostRange) : List Nat := List.range' r.lo (r.hi + 1 - r.lo)

/-- The host name with suffix `k`. -/
def HostRange.nameAt (r : HostRange) (k : Nat) : List Char := r.pfx ++ padded r.width k

/-- The host names a range stands for, in order. -/
def HostRange.names (r : HostRange) : List (List Char) :=
  if r.singlehost then [r.pfx] else r.numbers.map r.nameAt

/-- The expansion of a list of ranges, range by range. -/
def names (rs : List HostRange) : List (List Char) := rs.flatMap HostRange.names

@[simp] theorem names_nil : names [] = [] := rfl

@[simp] theorem names_cons (r : HostRange) (rs : List HostRange) :
    names (r :: rs) = r.names ++ names rs := rfl

@[simp] theorem names_append (rs ss : List HostRange) :
    names (rs ++ ss) = names rs ++ names ss := List.flatMap_append

/-- The sum of `hostrange_count` over a list of ranges. -/
def hosts (rs : List HostRange) : Nat := (rs.map hostrangeCount).sum

@[simp] theorem hosts_nil : hosts [] = 0 := rfl

@[simp] theorem hosts_cons (r : HostRange) (rs : List HostRange) :
    hosts (r :: rs) = hostrangeCount r + hosts rs := rfl

@[simp] theorem hosts_append (rs ss : List HostRange) :
    hosts (rs ++ ss) = hosts rs + hosts ss := by
  simp [hosts]

/-- What every range in a list satisfies, ordered or not: bounds are
`unsigned long`s and a single host carries no suffix data. -/
structure HostRange.Wf (r : HostRange) : Prop where
  lo_lt : r.lo < 18446744073709551616
  hi_lt : r.hi < 18446744073709551616
  single : r.singlehost = true → r.lo = 0 ∧ r.hi = 0 ∧ r.width = 0

/-- A range that is not a single host has `lo ≤ hi`. -/
def HostRange.Ordered (r : HostRange) : Prop := r.singlehost = false → r.lo ≤ r.hi

instance (r : HostRange) : Decidable r.Ordered :=
  inferInstanceAs (Decidable (_ → _))

theorem hostrangeCopy_eq {r : HostRange} (h : r.Wf) : hostrangeCopy r = r := by
  cases hs : r.singlehost with
  | false =>
    cases r
    simp_all [hostrangeCopy, hostrangeCreate]
  | true =>
    obtain ⟨h1, h2, h3⟩ := h.single hs
    cases r
    simp_all [hostrangeCopy, hostrangeCreateSingle]

theorem length_names {r : HostRange} :
    r.names.length = if r.singlehost then 1 else r.hi + 1 - r.lo := by
  unfold HostRange.names HostRange.numbers
  split <;> simp

/-- The count is the number of names, in `unsigned long`. -/
theorem hostrangeCount_mod {r : HostRange} (ho : r.Ordered) :
    hostrangeCount r = r.names.length % 18446744073709551616 := by
  rw [length_names]
  unfold hostrangeCount
  cases hs : r.singlehost with
  | true => rfl
  | false =>
    have := ho hs
    simp only [ulong]
    norm_num
    omega

/-! ## Widths -/

theorem zeroPadded_eq_iff {n w w' : Nat} :
    zeroPadded n w = zeroPadded n w' ↔ padded w n = padded w' n := by
  rw [padded_eq_padded_iff]
  unfold zeroPadded
  split <;> split <;> omega

/-- The widths of two ranges are compatible: one of them prints the other's
lowest number unchanged. -/
def Compatible (h0 h1 : HostRange) : Prop :=
  padded h0.width h0.lo = padded h1.width h0.lo ∨
    padded h0.width h1.lo = padded h1.width h1.lo

instance (h0 h1 : HostRange) : Decidable (Compatible h0 h1) :=
  inferInstanceAs (Decidable (_ ∨ _))

/-- `_width_equiv` by cases: which width wins, or that both stay. -/
theorem widthEquiv_spec (n wn m wm : Nat) :
    widthEquiv n wn m wm =
      if padded wn n = padded wm n then (true, wm, wm)
      else if padded wn m = padded wm m then (true, wn, wn)
      else (false, wn, wm) := by
  unfold widthEquiv
  simp only [ne_eq, zeroPadded_eq_iff, eq_comm (a := padded wm m)]
  by_cases h1 : padded wn n = padded wm n <;> by_cases h2 : padded wn m = padded wm m <;>
    simp [h1, h2]

/-- `r'` is `r` with a width that prints all its numbers as before. -/
def Reprint (r r' : HostRange) : Prop :=
  ∃ w, r' = { r with width := w } ∧ padded w r.lo = padded r.width r.lo

theorem Reprint.refl (r : HostRange) : Reprint r r := ⟨r.width, rfl, rfl⟩

theorem Reprint.trans {r s t : HostRange} (h1 : Reprint r s) (h2 : Reprint s t) :
    Reprint r t := by
  obtain ⟨w, rfl, hw⟩ := h1
  obtain ⟨w', rfl, hw'⟩ := h2
  exact ⟨w', rfl, hw'.trans hw⟩

namespace Reprint

variable {r s : HostRange} (h : Reprint r s)
include h

theorem pfx : s.pfx = r.pfx := by obtain ⟨w, rfl, -⟩ := h; rfl

theorem lo : s.lo = r.lo := by obtain ⟨w, rfl, -⟩ := h; rfl

theorem hi : s.hi = r.hi := by obtain ⟨w, rfl, -⟩ := h; rfl

theorem singlehost : s.singlehost = r.singlehost := by obtain ⟨w, rfl, -⟩ := h; rfl

theorem ordered : s.Ordered ↔ r.Ordered := by obtain ⟨w, rfl, -⟩ := h; exact Iff.rfl

theorem padded {k : Nat} (hk : r.lo ≤ k) : padded s.width k = Base.Text.padded r.width k := by
  obtain ⟨w, rfl, hw⟩ := h
  exact padded_eq_padded_of_le hk hw

/-- A reprinted range stands for the same names. -/
theorem names : s.names = r.names := by
  have hpad := fun k (hk : r.lo ≤ k) => h.padded hk
  obtain ⟨w, rfl, -⟩ := h
  unfold HostRange.names
  refine if_congr Iff.rfl rfl (List.map_congr_left ?_)
  intro k hk
  have hlo : r.lo ≤ k := (List.mem_range'_1.mp hk).1
  simp only [HostRange.nameAt]
  rw [hpad k hlo]

end Reprint

/-- What `hostrange_width_combine` does: it succeeds exactly on compatible
widths, makes them equal, and reprints both ranges. -/
theorem hostrangeWidthCombine_spec (h0 h1 : HostRange) :
    (hostrangeWidthCombine h0 h1).1 = decide (Compatible h0 h1) ∧
    Reprint h0 (hostrangeWidthCombine h0 h1).2.1 ∧
    Reprint h1 (hostrangeWidthCombine h0 h1).2.2 ∧
    (Compatible h0 h1 → (hostrangeWidthCombine h0 h1).2.1.width =
      (hostrangeWidthCombine h0 h1).2.2.width) := by
  simp only [hostrangeWidthCombine, widthEquiv_spec]
  by_cases e1 : padded h0.width h0.lo = padded h1.width h0.lo
  · simp only [if_pos e1]
    exact ⟨by simp [Compatible, e1], ⟨h1.width, rfl, e1.symm⟩, .refl h1, fun _ => trivial⟩
  · by_cases e2 : padded h0.width h1.lo = padded h1.width h1.lo
    · simp only [if_neg e1, if_pos e2]
      exact ⟨by simp [Compatible, e2], .refl h0, ⟨h0.width, rfl, e2⟩, fun _ => trivial⟩
    · simp only [if_neg e1, if_neg e2]
      have hno : ¬ Compatible h0 h1 := fun h => h.elim e1 e2
      exact ⟨by simp [hno], .refl h0, .refl h1, fun h => absurd h hno⟩

theorem hostrangeWidthCombine_of_not {h0 h1 : HostRange} (h : ¬ Compatible h0 h1) :
    hostrangeWidthCombine h0 h1 = (false, h0, h1) := by
  rw [Compatible, not_or] at h
  simp only [hostrangeWidthCombine, widthEquiv_spec, if_neg h.1, if_neg h.2]

theorem Reprint.wf {r s : HostRange} (h : Reprint r s) (hr : r.Wf)
    (hs : r.singlehost = false ∨ s.width = 0) : s.Wf := by
  refine ⟨by rw [h.lo]; exact hr.lo_lt, by rw [h.hi]; exact hr.hi_lt, fun hsing => ?_⟩
  rw [h.singlehost] at hsing
  obtain ⟨h1, h2, -⟩ := hr.single hsing
  refine ⟨by rw [h.lo, h1], by rw [h.hi, h2], ?_⟩
  rcases hs with hs | hs
  · rw [hsing] at hs
    exact absurd hs (by simp)
  · exact hs

/-! ## Prefixes -/

/-- Two ranges have the same prefix and are both single hosts or both not. -/
def SamePrefix (h1 h2 : HostRange) : Prop :=
  h1.pfx = h2.pfx ∧ h1.singlehost = h2.singlehost

instance (h1 h2 : HostRange) : Decidable (SamePrefix h1 h2) :=
  inferInstanceAs (Decidable (_ ∧ _))

theorem hostrangePrefixCmp_eq_zero_iff {h1 h2 : HostRange} :
    hostrangePrefixCmp (some h1) (some h2) = 0 ↔ SamePrefix h1 h2 := by
  simp only [hostrangePrefixCmp, SamePrefix]
  by_cases hp : strcmp h1.pfx h2.pfx = 0
  · rw [if_pos hp]
    rw [strcmp_eq_zero_iff] at hp
    cases h1.singlehost <;> cases h2.singlehost <;> simp [hp]
  · rw [if_neg hp]
    rw [strcmp_eq_zero_iff] at hp
    simp [hp, strcmp_eq_zero_iff]

theorem hostrangeWithinRange_iff {h1 h2 : HostRange} :
    hostrangeWithinRange (some h1) (some h2) = true ↔
      h1.pfx = h2.pfx ∧ h1.singlehost = false ∧ h2.singlehost = false := by
  simp only [hostrangeWithinRange, hostrangePrefixCmp_eq_zero_iff, SamePrefix]
  cases h1.singlehost <;> cases h2.singlehost <;> simp

theorem hostrangeWithinRange_none (h : HostRange) :
    hostrangeWithinRange (some h) none = false := rfl

end Slurm.Hosts
