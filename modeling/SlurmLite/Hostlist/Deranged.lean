import SlurmLite.Hostlist.Print

/-!
# Printing a hostlist name by name

`hostlist_deranged_string` prints the names one after the other, range by range
through `hostrange_to_string`, over a buffer of cells with every write checked.

* **One range**: `toStringLoop_spec` and `toStringLoop_endless`: the loop prints
  every name with a separator behind it, and never ends by itself for a range
  up to the largest number.
* **One list**: `derangedLoop_cases`: what the loop writes, or that it writes
  outside the buffer (`Overrun`).
* **Together**: `strings_iff`: `hostlist_ranged_string` is right for every buffer,
  `hostlist_deranged_string` under the condition `DerangedFits`.

The source keeps lengths in an `int`: buffers are no longer than the largest
one, and so is every name.
-/

namespace Slurm.Hosts

open Base.Text Base.CLib Base.Buffer

/-! ## The functions -/

/-- The loop of `hostrange_to_string` into `n` bytes at `base`: whether the text
was truncated, the length and the buffer. The counter starts over at 0 behind the
largest number. Each turn that is not the last writes a separator, so `n` bounds
the turns. -/
def toStringLoop (hr : HostRange) (n base : Nat) :
    Nat → Nat → Nat → List Char → Option (Bool × Nat × List Char)
  | 0, _, _, _ => none
  | fuel + 1, i, len, b =>
    if i ≤ hr.hi then do
      let (b, ret) ← snprintf b (base + len) (n - len) (hr.nameAt i)
      if ret ≥ n - len then some (true, n, b)
      else
        let b ← put b (base + (len + ret)) ','
        toStringLoop hr n base fuel (ulong (i + 1)) (len + ret + 1) b
    else some (false, len, b)

/-- `hostrange_to_string` into `n` bytes at `base`: the result and the buffer. -/
def hostrangeToString (hr : HostRange) (n : Nat) (b : List Char) (base : Nat) :
    Option (Int × List Char) :=
  if n = 0 then some (0, b)
  else if hr.singlehost then (snprintf b base n hr.pfx).map fun r => ((r.2 : Int), r.1)
  else do
    let (truncated, len, b) ← toStringLoop hr n base (n + 1) hr.lo 0 b
    if truncated then (put b (base + (n - 1)) nul).map fun b => (-1, b)
    -- back up over the final separator
    else if base + len = 0 then none
    else (put b (base + len - 1) nul).map fun b => ((len : Int) - 1, b)

/-- The loop of `hostlist_deranged_string`. -/
def derangedLoop (n : Nat) :
    List HostRange → Nat → List Char → Option (Bool × Nat × List Char)
  | [], len, b => some (false, len, b)
  | hr :: rest, len, b => do
    let m := n - len
    let (ret, b) ← hostrangeToString hr m b len
    if ret < 0 ∨ (m : Int) < ret then some (true, n, b)
    else
      let b ← put b (len + ret.toNat) ','
      derangedLoop n rest (len + ret.toNat + 1) b

/-- `hostlist_deranged_string`: the result and the buffer. -/
def hostlistDerangedString (hl : Hostlist) (n : Nat) (b : List Char) :
    Option (Int × List Char) := do
  let rs ← hl.ranges
  let (truncated, len, b) ← derangedLoop n rs 0 b
  let len := if 0 < len then len - 1 else 0
  let b ← put b len nul
  some (if truncated ∨ len = n then -1 else len, b)

/-! ## The text -/

/-- What `hostlist_deranged_string` prints: the names, separated. -/
def derangedText (rs : List HostRange) : List Char := [','].intercalate (names rs)

/-- Names with a separator behind each. -/
def separated (ns : List (List Char)) : List Char := ns.flatMap fun name => name ++ [',']

@[simp] theorem separated_nil : separated [] = [] := rfl

@[simp] theorem separated_cons (name : List Char) (ns : List (List Char)) :
    separated (name :: ns) = name ++ [','] ++ separated ns := rfl

@[simp] theorem separated_append (ns ms : List (List Char)) :
    separated (ns ++ ms) = separated ns ++ separated ms := List.flatMap_append

theorem separated_eq {ns : List (List Char)} (h : ns ≠ []) :
    separated ns = [','].intercalate ns ++ [','] := by
  induction ns with
  | nil => exact absurd rfl h
  | cons name ns ih =>
    cases ns with
    | nil => simp
    | cons name' ns =>
      rw [separated_cons, ih (List.cons_ne_nil _ _), List.intercalate_cons_cons]
      simp

/-! ## One range -/

/-- A range whose numbers the loop counts through and leaves. -/
def HostRange.Counted (r : HostRange) : Prop :=
  r.singlehost = false → r.lo ≤ r.hi ∧ r.hi ≠ ulongMax

instance (r : HostRange) : Decidable r.Counted := inferInstanceAs (Decidable (_ → _))

theorem HostRange.Counted.names_ne_nil {r : HostRange} (h : r.Counted) : r.names ≠ [] := by
  have hpos := names_length_pos fun hs => (h hs).1
  exact List.ne_nil_of_length_pos hpos

/-- One turn of the loop behind the text `loc` of the range: its buffer is full,
or the next name and a separator are written. -/
theorem toStringLoop_turn {hr : HostRange} {n fuel i : Nat} {out loc b : List Char}
    (hi : i ≤ hr.hi) (hp : out ++ loc <+: b) (hloc : loc.length ≤ n)
    (hn : out.length + n ≤ b.length) :
    (n ≤ (loc ++ hr.nameAt i).length ∧ ∃ b', b'.length = b.length ∧
        toStringLoop hr n out.length (fuel + 1) i loc.length b = some (true, n, b')) ∨
      ((loc ++ hr.nameAt i).length < n ∧ ∃ b', b'.length = b.length ∧
        out ++ (loc ++ (hr.nameAt i ++ [','])) <+: b' ∧
        toStringLoop hr n out.length (fuel + 1) i loc.length b =
          toStringLoop hr n out.length fuel (ulong (i + 1))
            (loc ++ (hr.nameAt i ++ [','])).length b') := by
  have hroom : (out ++ loc).length + (n - loc.length) ≤ b.length := by
    rw [List.length_append]
    omega
  obtain ⟨b₁, hprint, hlen₁, -, htext⟩ := snprintf_of_le (hr.nameAt i) hp hroom
  rw [List.length_append] at hprint
  rw [toStringLoop, if_pos hi]
  simp only [hprint, Option.bind_eq_bind, Option.bind_some]
  by_cases hfull : n - loc.length ≤ (hr.nameAt i).length
  · refine Or.inl ⟨by rw [List.length_append]; omega, b₁, hlen₁, ?_⟩
    rw [if_pos hfull]
  · have hshort : (hr.nameAt i).length < n - loc.length := by omega
    have hp₁ : out ++ loc ++ hr.nameAt i <+: b₁ :=
      (List.prefix_append _ _).trans (htext hshort)
    have hend : out.length + (loc.length + (hr.nameAt i).length) =
        (out ++ loc ++ hr.nameAt i).length := by
      simp only [List.length_append]
      omega
    obtain ⟨b₂, hput, hlen₂, hp₂⟩ := put_end ',' hp₁ (by omega)
    refine Or.inr ⟨by rw [List.length_append]; omega, b₂, hlen₂.trans hlen₁, ?_, ?_⟩
    · simpa using hp₂
    · rw [if_neg hfull, hend, hput, Option.bind_some]
      simp only [List.length_append, List.length_singleton, Nat.add_assoc]

/-- The loop writes the names from number `i` on with a separator behind each, or
runs into the end of its buffer. -/
theorem toStringLoop_spec {hr : HostRange} {n : Nat} {out : List Char} (hmax : hr.hi < ulongMax)
    (k fuel i : Nat) {loc b : List Char} (hi : i + k = hr.hi + 1) (hp : out ++ loc <+: b)
    (hloc : loc.length ≤ n) (hn : out.length + n ≤ b.length) (hfuel : n < fuel + loc.length) :
    ∃ b', b'.length = b.length ∧
      let text := loc ++ separated ((List.range' i k).map hr.nameAt)
      (text.length ≤ n ∧ out ++ text <+: b' ∧
          toStringLoop hr n out.length fuel i loc.length b = some (false, text.length, b') ∨
        n < text.length ∧
          toStringLoop hr n out.length fuel i loc.length b = some (true, n, b')) := by
  obtain ⟨fuel, rfl⟩ : ∃ f, fuel = f + 1 := ⟨fuel - 1, by omega⟩
  induction k generalizing fuel i loc b with
  | zero =>
    refine ⟨b, rfl, Or.inl ?_⟩
    have hdone : ¬ i ≤ hr.hi := by omega
    simp only [List.range'_zero, List.map_nil, separated_nil, List.append_nil]
    exact ⟨hloc, hp, by rw [toStringLoop, if_neg hdone]⟩
  | succ k ih =>
    have htext : loc ++ separated ((List.range' i (k + 1)).map hr.nameAt) =
        loc ++ (hr.nameAt i ++ [',']) ++
          separated ((List.range' (i + 1) k).map hr.nameAt) := by
      simp only [List.range'_succ, List.map_cons, separated_cons, List.append_assoc]
    rw [htext]
    obtain ⟨hfull, b', hlen, hloop⟩ | ⟨hshort, b₁, hlen₁, hp₁, hloop⟩ :=
      @toStringLoop_turn hr n fuel i out loc b (by omega) hp hloc hn
    · refine ⟨b', hlen, Or.inr ⟨?_, hloop⟩⟩
      simp only [List.length_append, List.length_singleton] at hfull ⊢
      omega
    · have hnext : ulong ((i : Int) + 1) = i + 1 := by
        have hmax' : hr.hi < 18446744073709551615 := hmax
        have hlt : i + 1 < 18446744073709551616 := by omega
        exact_mod_cast ulong_of_lt hlt
      have hlen : (loc ++ (hr.nameAt i ++ [','])).length =
          (loc ++ hr.nameAt i).length + 1 := by
        simp only [List.length_append, List.length_singleton]
        omega
      have hlong : loc.length ≤ (loc ++ hr.nameAt i).length := by
        rw [List.length_append]
        omega
      obtain ⟨fuel, rfl⟩ : ∃ f, fuel = f + 1 := ⟨fuel - 1, by omega⟩
      obtain ⟨b', hlen', hcase⟩ := ih (i + 1) (by omega) hp₁ (by omega) (by omega) fuel
        (by omega)
      refine ⟨b', hlen'.trans hlen₁, ?_⟩
      rw [hloop, hnext]
      exact hcase

/-- The loop of a range up to the largest number always runs into the end of its
buffer. -/
theorem toStringLoop_endless {hr : HostRange} {n : Nat} {out : List Char}
    (hmax : hr.hi = ulongMax) (fuel i : Nat) {loc b : List Char} (hi : i ≤ hr.hi)
    (hp : out ++ loc <+: b) (hloc : loc.length ≤ n) (hn : out.length + n ≤ b.length)
    (hfuel : n < fuel + loc.length) :
    ∃ b', b'.length = b.length ∧
      toStringLoop hr n out.length fuel i loc.length b = some (true, n, b') := by
  induction fuel generalizing i loc b with
  | zero => omega
  | succ fuel ih =>
    obtain ⟨-, b', hlen, hloop⟩ | ⟨hshort, b₁, hlen₁, hp₁, hloop⟩ :=
      @toStringLoop_turn hr n fuel i out loc b hi hp hloc hn
    · exact ⟨b', hlen, hloop⟩
    · have hlen : (loc ++ (hr.nameAt i ++ [','])).length =
          (loc ++ hr.nameAt i).length + 1 := by
        simp only [List.length_append, List.length_singleton]
        omega
      have hlong : loc.length ≤ (loc ++ hr.nameAt i).length := by
        rw [List.length_append]
        omega
      have hnext : ulong ((i : Int) + 1) ≤ hr.hi := by
        rw [hmax]
        exact Nat.le_of_lt_succ (ulong_lt _)
      obtain ⟨b', hlen', hrest⟩ := ih _ hnext hp₁ (by omega) (by omega) (by omega)
      exact ⟨b', hlen'.trans hlen₁, by rw [hloop, hrest]⟩

/-- A range that is counted through is printed whole if its text fits. If not,
the result is -1, or for a single host the length of the name. -/
theorem hostrangeToString_counted {r : HostRange} (hwf : r.Wf) (hc : r.Counted) {n : Nat}
    {out b : List Char} (hpos : 0 < n) (hp : out <+: b) (hn : out.length + n ≤ b.length) :
    ∃ b' ret, hostrangeToString r n b out.length = some (ret, b') ∧ b'.length = b.length ∧
      let text := [','].intercalate r.names
      (text.length < n ∧ ret = text.length ∧ out ++ text <+: b' ∨
        n ≤ text.length ∧ ret = if r.singlehost then (text.length : Int) else -1) := by
  cases hs : r.singlehost with
  | true =>
    have hnames : r.names = [r.pfx] := by rw [HostRange.names, if_pos hs]
    obtain ⟨b', hprint, hlen, -, htext⟩ := snprintf_of_le r.pfx hp hn
    refine ⟨b', r.pfx.length, ?_, hlen, ?_⟩
    · rw [hostrangeToString, if_neg (by omega), if_pos hs, hprint]
      rfl
    · simp only [hnames, List.intercalate_singleton, if_true]
      by_cases hfit : r.pfx.length < n
      · exact Or.inl ⟨hfit, trivial, (List.prefix_append _ _).trans (htext hfit)⟩
      · exact Or.inr ⟨by omega, trivial⟩
  | false =>
    obtain ⟨hle, hmax⟩ := hc hs
    have hno : ¬ r.singlehost = true := by simp [hs]
    have hnames : r.names = (List.range' r.lo (r.hi + 1 - r.lo)).map r.nameAt := by
      rw [HostRange.names, if_neg hno]
      rfl
    have hsep := separated_eq hc.names_ne_nil
    have hhi : r.hi < ulongMax := by
      have hlt := hwf.hi_lt
      have hmax' : r.hi ≠ 18446744073709551615 := hmax
      show r.hi < 18446744073709551615
      omega
    obtain ⟨b₁, hlen₁, hcase⟩ := @toStringLoop_spec r n out hhi (r.hi + 1 - r.lo) (n + 1) r.lo
      [] b (by omega) (by rwa [List.append_nil]) (Nat.zero_le _) hn (by omega)
    rw [← hnames, List.nil_append, hsep] at hcase
    simp only [List.length_append, List.length_singleton, List.length_nil] at hcase
    rw [hostrangeToString, if_neg (by omega), if_neg hno]
    obtain ⟨hfit, hp₁, hloop⟩ | ⟨hfull, hloop⟩ := hcase
    · simp only [hloop, Option.bind_eq_bind, Option.bind_some, Bool.false_eq_true, if_false]
      rw [← List.append_assoc] at hp₁
      obtain ⟨b₂, hput, hlen₂, hp₂⟩ := put_end nul ((List.prefix_append _ _).trans hp₁)
        (by rw [List.length_append]; omega)
      have hidx : out.length + ([','].intercalate r.names |>.length) + 1 - 1 =
          (out ++ [','].intercalate r.names).length := by
        rw [List.length_append]
        omega
      rw [if_neg (by omega), ← Nat.add_assoc, hidx, hput]
      refine ⟨b₂, _, rfl, hlen₂.trans hlen₁, Or.inl ⟨by omega, by push_cast; omega, ?_⟩⟩
      exact (List.prefix_append _ _).trans hp₂
    · simp only [hloop, Option.bind_eq_bind, Option.bind_some, if_true]
      obtain ⟨b₂, hput, hlen₂⟩ := put_of_lt (b := b₁) (i := out.length + (n - 1)) nul (by omega)
      rw [hput]
      exact ⟨b₂, -1, rfl, hlen₂.trans hlen₁, Or.inr ⟨by omega, rfl⟩⟩

/-- A range up to the largest number is cut off. -/
theorem hostrangeToString_endless {r : HostRange} (hwf : r.Wf) (hs : r.singlehost = false)
    (hmax : r.hi = ulongMax) {n : Nat} {out b : List Char} (hpos : 0 < n) (hp : out <+: b)
    (hn : out.length + n ≤ b.length) :
    ∃ b', hostrangeToString r n b out.length = some (-1, b') ∧ b'.length = b.length := by
  have hlo : r.lo ≤ r.hi := by
    rw [hmax]
    exact Nat.le_of_lt_succ hwf.lo_lt
  obtain ⟨b₁, hlen₁, hloop⟩ := @toStringLoop_endless r n out hmax (n + 1) r.lo [] b hlo
    (by rwa [List.append_nil]) (Nat.zero_le _) hn (by omega)
  rw [List.length_nil] at hloop
  rw [hostrangeToString, if_neg (by omega), if_neg (by simp [hs])]
  simp only [hloop, Option.bind_eq_bind, Option.bind_some, if_true]
  obtain ⟨b₂, hput, hlen₂⟩ := put_of_lt (b := b₁) (i := out.length + (n - 1)) nul (by omega)
  exact ⟨b₂, by rw [hput]; rfl, hlen₂.trans hlen₁⟩

/-- A range whose bounds are out of order writes the NUL before its text. -/
theorem hostrangeToString_unordered {r : HostRange} (hs : r.singlehost = false)
    (hlt : r.hi < r.lo) {n base : Nat} {b : List Char} (hpos : 0 < n)
    (hn : base + n ≤ b.length) :
    if base = 0 then hostrangeToString r n b base = none
    else ∃ b', hostrangeToString r n b base = some (-1, b') ∧ b'.length = b.length := by
  have hloop : toStringLoop r n base (n + 1) r.lo 0 b = some (false, 0, b) := by
    rw [toStringLoop, if_neg (by omega)]
  have hstr : hostrangeToString r n b base =
      if base + 0 = 0 then none else (put b (base + 0 - 1) nul).map fun b => (-1, b) := by
    rw [hostrangeToString, if_neg (by omega), if_neg (by simp [hs])]
    simp only [hloop, Option.bind_eq_bind, Option.bind_some, Bool.false_eq_true, if_false]
    rfl
  rw [hstr]
  by_cases hbase : base = 0
  · rw [if_pos hbase, if_pos (by omega)]
  · rw [if_neg hbase, if_neg (by omega)]
    obtain ⟨b', hput, hlen⟩ := put_of_lt (b := b) (i := base + 0 - 1) nul (by omega)
    exact ⟨b', by rw [hput]; rfl, hlen⟩

/-! ## The loop over the ranges -/

/-- Printing `r` behind the text `pre` writes outside the `n` bytes. The separator
goes to index `n` when nothing is left for `r`, or when the name of a single host
takes all that is left; the NUL of a range without hosts goes in front of the
buffer. -/
def OutOfBounds (n : Nat) (pre : List Char) (r : HostRange) : Prop :=
  pre.length = n ∨ (r.singlehost = true ∧ pre.length + r.pfx.length = n) ∨
    (pre = [] ∧ ¬ r.Ordered)

instance (n : Nat) (pre : List Char) (r : HostRange) : Decidable (OutOfBounds n pre r) :=
  inferInstanceAs (Decidable (_ ∨ _))

/-- Some range behind ranges that are all printed writes outside. -/
def Overrun (n : Nat) (pre : List Char) (rs : List HostRange) : Prop :=
  ∃ as r bs, rs = as ++ r :: bs ∧ (∀ a ∈ as, a.Counted) ∧
    OutOfBounds n (pre ++ separated (names as)) r

theorem not_overrun_nil {n : Nat} {pre : List Char} : ¬ Overrun n pre [] := by
  rintro ⟨as, r, bs, h, -⟩
  simp at h

/-- The first range that writes outside is the first of all or comes later. -/
theorem overrun_cons {n : Nat} {pre : List Char} {r : HostRange} {rs : List HostRange} :
    Overrun n pre (r :: rs) ↔
      OutOfBounds n pre r ∨ (r.Counted ∧ Overrun n (pre ++ separated r.names) rs) := by
  constructor
  · rintro ⟨as, r', bs, h, hcount, hout⟩
    cases as with
    | nil =>
      obtain ⟨rfl, -⟩ := List.cons.inj h
      exact Or.inl (by simpa using hout)
    | cons a as =>
      obtain ⟨rfl, rfl⟩ := List.cons.inj h
      refine Or.inr ⟨hcount r List.mem_cons_self, as, r', bs, rfl, ?_, ?_⟩
      · intro a ha
        exact hcount a (List.mem_cons_of_mem _ ha)
      · simpa using hout
  · rintro (hout | ⟨hc, as, r', bs, rfl, hcount, hout⟩)
    · refine ⟨[], r, rs, rfl, ?_, by simpa using hout⟩
      intro a ha
      simp at ha
    · refine ⟨r :: as, r', bs, rfl, ?_, by simpa using hout⟩
      intro a ha
      obtain rfl | ha := List.mem_cons.mp ha
      · exact hc
      · exact hcount a ha

/-- Text that is past the end is never written outside: the loop has stopped. -/
theorem Overrun.length_le {n : Nat} {pre : List Char} {rs : List HostRange}
    (h : Overrun n pre rs) : pre.length ≤ n := by
  obtain ⟨as, r, bs, -, -, hout⟩ := h
  have hlen : (pre ++ separated (names as)).length ≤ n := by
    rcases hout with hfull | ⟨-, hname⟩ | ⟨hnil, -⟩
    · omega
    · omega
    · rw [hnil]
      exact Nat.zero_le _
  rw [List.length_append] at hlen
  omega

theorem derangedLoop_cons {r : HostRange} (rest : List HostRange) {n len : Nat}
    {b b' : List Char} {ret : Int}
    (hstr : hostrangeToString r (n - len) b len = some (ret, b')) :
    derangedLoop n (r :: rest) len b =
      if ret < 0 ∨ ((n - len : Nat) : Int) < ret then some (true, n, b')
      else (put b' (len + ret.toNat) ',').bind fun b =>
        derangedLoop n rest (len + ret.toNat + 1) b := by
  rw [derangedLoop]
  simp only [hstr, Option.bind_eq_bind, Option.bind_some]

/-- The separator behind a full buffer is written outside. -/
theorem derangedLoop_outside {r : HostRange} (rest : List HostRange) {n len : Nat}
    {b b' : List Char} {k : Nat} (hstr : hostrangeToString r (n - len) b len = some ((k : Int), b'))
    (hb' : b'.length = n) (hk : len + k = n) : derangedLoop n (r :: rest) len b = none := by
  have hput : put b' n ',' = none := if_neg (by omega)
  rw [derangedLoop_cons rest hstr, if_neg (by omega), Int.toNat_natCast, hk, hput]
  rfl

/-- One turn of the loop: a write outside, the range printed whole with a
separator behind it, or a break. -/
theorem derangedLoop_turn {r : HostRange} (hwf : r.Wf) (rest : List HostRange) {n : Nat}
    {pre b : List Char} (hp : pre <+: b) (hpre : pre.length ≤ n) (hb : b.length = n) :
    (OutOfBounds n pre r ∧ derangedLoop n (r :: rest) pre.length b = none) ∨
      (¬ OutOfBounds n pre r ∧ r.Counted ∧ ∃ b', b'.length = n ∧
        (pre ++ separated r.names).length ≤ n ∧ pre ++ separated r.names <+: b' ∧
        derangedLoop n (r :: rest) pre.length b =
          derangedLoop n rest (pre ++ separated r.names).length b') ∨
      (¬ OutOfBounds n pre r ∧ (r.Counted → n < (pre ++ separated r.names).length) ∧
        ∃ b', b'.length = n ∧
          derangedLoop n (r :: rest) pre.length b = some (true, n, b')) := by
  by_cases hfull : pre.length = n
  · -- nothing is printed, and the separator goes behind the buffer
    have hstr : hostrangeToString r (n - pre.length) b pre.length = some (((0 : Nat) : Int), b) :=
      if_pos (by omega)
    exact Or.inl ⟨Or.inl hfull, derangedLoop_outside rest hstr hb (by omega)⟩
  have hroom : pre.length + (n - pre.length) ≤ b.length := by omega
  have hm : 0 < n - pre.length := by omega
  by_cases hc : r.Counted
  · have hord : r.Ordered := fun hs => (hc hs).1
    obtain ⟨b₁, ret, hstr, hlen₁, hcase⟩ := hostrangeToString_counted hwf hc hm hp hroom
    -- a range that is counted is printed whole, or it does not fit
    have hsep := separated_eq hc.names_ne_nil
    have hlen : (pre ++ separated r.names).length =
        pre.length + ([','].intercalate r.names).length + 1 := by
      rw [hsep]
      simp only [List.length_append, List.length_singleton, Nat.add_assoc]
    have hsingle : r.singlehost = true → [','].intercalate r.names = r.pfx := by
      intro hs
      rw [HostRange.names, if_pos hs, List.intercalate_singleton]
    have hout : OutOfBounds n pre r ↔
        r.singlehost = true ∧ pre.length + ([','].intercalate r.names).length = n := by
      constructor
      · rintro (h | ⟨hs, h⟩ | ⟨-, h⟩)
        · exact absurd h hfull
        · exact ⟨hs, by rw [hsingle hs]; exact h⟩
        · exact absurd hord h
      · rintro ⟨hs, h⟩
        rw [hsingle hs] at h
        exact Or.inr (Or.inl ⟨hs, h⟩)
    obtain ⟨hfit, rfl, hp₁⟩ | ⟨hlong, rfl⟩ := hcase
    · have hidx : pre.length + ([','].intercalate r.names).length =
          (pre ++ [','].intercalate r.names).length := List.length_append.symm
      obtain ⟨b₂, hput, hlen₂, hp₂⟩ := put_end ',' hp₁ (by omega)
      refine Or.inr (Or.inl ⟨?_, hc, b₂, by omega, by omega, ?_, ?_⟩)
      · rw [hout]
        rintro ⟨-, h⟩
        omega
      · rwa [hsep, ← List.append_assoc]
      · rw [derangedLoop_cons rest hstr, if_neg (by omega), Int.toNat_natCast, hidx, hput,
          Option.bind_some, hlen, hidx]
    · cases hs : r.singlehost with
      | true =>
        rw [hs, if_pos rfl] at hstr
        by_cases hend : pre.length + ([','].intercalate r.names).length = n
        · refine Or.inl ⟨hout.mpr ⟨hs, hend⟩, ?_⟩
          exact derangedLoop_outside rest hstr (by omega) hend
        · refine Or.inr (Or.inr ⟨?_, fun _ => by omega, b₁, by omega, ?_⟩)
          · rw [hout]
            exact fun h => hend h.2
          · rw [derangedLoop_cons rest hstr, if_pos (by omega)]
      | false =>
        rw [hs, if_neg Bool.false_ne_true] at hstr
        refine Or.inr (Or.inr ⟨?_, fun _ => by omega, b₁, by omega, ?_⟩)
        · rw [hout, hs]
          exact fun h => Bool.false_ne_true h.1
        · rw [derangedLoop_cons rest hstr, if_pos (by omega)]
  · have hs : r.singlehost = false := by
      cases hs : r.singlehost with
      | true => exact absurd (fun h => absurd (hs.symm.trans h) (by simp)) hc
      | false => rfl
    have hout : OutOfBounds n pre r ↔ pre = [] ∧ ¬ r.Ordered := by
      simp [OutOfBounds, hfull, hs]
    -- no host, or one after the other without end
    by_cases hlt : r.hi < r.lo
    · have hord : ¬ r.Ordered := fun h => absurd (h hs) (by omega)
      have hstr := hostrangeToString_unordered hs hlt hm hroom
      by_cases hnil : pre = []
      · subst hnil
        rw [List.length_nil, if_pos rfl] at hstr
        refine Or.inl ⟨hout.mpr ⟨rfl, hord⟩, ?_⟩
        rw [derangedLoop, List.length_nil]
        simp only [hstr, Option.bind_eq_bind, Option.bind_none]
      · rw [if_neg (fun h => hnil (List.length_eq_zero_iff.mp h))] at hstr
        obtain ⟨b₁, hstr, hlen₁⟩ := hstr
        refine Or.inr (Or.inr ⟨?_, fun h => absurd h hc, b₁, by omega, ?_⟩)
        · rw [hout]
          exact fun h => hnil h.1
        · rw [derangedLoop_cons rest hstr, if_pos (by omega)]
    · have hmax : r.hi = ulongMax := by
        by_contra hne
        exact hc fun _ => ⟨by omega, hne⟩
      obtain ⟨b₁, hstr, hlen₁⟩ := hostrangeToString_endless hwf hs hmax hm hp hroom
      refine Or.inr (Or.inr ⟨?_, fun h => absurd h hc, b₁, by omega, ?_⟩)
      · rw [hout]
        exact fun h => h.2 fun _ => by omega
      · rw [derangedLoop_cons rest hstr, if_pos (by omega)]

/-- What the loop does behind the text `pre`. -/
theorem derangedLoop_cases {rest : List HostRange} (hwf : ∀ r ∈ rest, r.Wf) {n : Nat}
    {pre b : List Char} (hp : pre <+: b) (hpre : pre.length ≤ n) (hb : b.length = n) :
    (Overrun n pre rest ∧ derangedLoop n rest pre.length b = none) ∨
      (¬ Overrun n pre rest ∧ ∃ b', b'.length = n ∧
        let text := pre ++ separated (names rest)
        ((∀ r ∈ rest, r.Counted) ∧ text.length ≤ n ∧ text <+: b' ∧
            derangedLoop n rest pre.length b = some (false, text.length, b') ∨
          ((∀ r ∈ rest, r.Counted) → n < text.length) ∧
            derangedLoop n rest pre.length b = some (true, n, b'))) := by
  induction rest generalizing pre b with
  | nil =>
    refine Or.inr ⟨not_overrun_nil, b, hb, Or.inl ⟨?_, ?_⟩⟩
    · intro r hr
      simp at hr
    · simp only [names_nil, separated_nil, List.append_nil]
      exact ⟨hpre, hp, rfl⟩
  | cons r rest ih =>
    have htext : pre ++ separated (names (r :: rest)) =
        pre ++ separated r.names ++ separated (names rest) := by
      rw [names_cons, separated_append, List.append_assoc]
    rw [overrun_cons, htext]
    obtain ⟨hout, hloop⟩ | ⟨hout, hc, b₁, hb₁, hfit, hp₁, hloop⟩ |
        ⟨hout, hlong, b₁, hb₁, hloop⟩ :=
      derangedLoop_turn (hwf r List.mem_cons_self) rest hp hpre hb
    · exact Or.inl ⟨Or.inl hout, hloop⟩
    · rw [hloop]
      have hall : (∀ s ∈ r :: rest, s.Counted) ↔ ∀ s ∈ rest, s.Counted := by
        rw [List.forall_mem_cons]
        exact and_iff_right hc
      rw [hall]
      obtain ⟨hover, hnone⟩ | ⟨hover, hrest⟩ :=
        ih (fun s hs => hwf s (List.mem_cons_of_mem _ hs)) hp₁ hfit hb₁
      · exact Or.inl ⟨Or.inr ⟨hc, hover⟩, hnone⟩
      · exact Or.inr ⟨fun h => h.elim hout fun h => hover h.2, hrest⟩
    · have hover : ¬ (r.Counted ∧ Overrun n (pre ++ separated r.names) rest) := by
        rintro ⟨hc, hrest⟩
        have hle := hrest.length_le
        have hgt := hlong hc
        omega
      refine Or.inr ⟨fun h => h.elim hout hover, b₁, hb₁, Or.inr ⟨?_, hloop⟩⟩
      intro hall
      have hgt := hlong (hall r List.mem_cons_self)
      rw [List.length_append]
      omega

/-! ## The two printers -/

/-- What the caller of a printer relies on. -/
def StringRight (string : Hostlist → Nat → List Char → Option (Int × List Char))
    (text : List Char) (hl : Hostlist) (n : Nat) (b : List Char) : Prop :=
  ∃ ret b', string hl n b = some (ret, b') ∧ b'.length = b.length ∧
    (n ≤ text.length ∧ ret = -1 ∨
      text.length < n ∧ ret = text.length ∧ text ++ [nul] <+: b')

/-- The condition under which the names are printed right: no write goes outside,
and the loops over the ranges of a text that fits all end by themselves. -/
def DerangedFits (n : Nat) (rs : List HostRange) : Prop :=
  ¬ Overrun n [] rs ∧ ((derangedText rs).length < n → ∀ r ∈ rs, r.Counted)

/-- The names of counted ranges fit with a separator behind each exactly when their
text fits with its NUL. -/
theorem separated_fits_iff {rs : List HostRange} {n : Nat} (hn : 1 ≤ n) :
    (separated (names rs)).length ≤ n ↔ (derangedText rs).length < n := by
  by_cases hnil : names rs = []
  · rw [derangedText, hnil]
    simp
    omega
  · rw [separated_eq hnil, List.length_append, List.length_singleton, derangedText]
    omega

/-- Behind the loop the last separator, or the last byte, becomes the NUL. -/
theorem hostlistDerangedString_of {hl : Hostlist} {rs : List HostRange}
    (hrs : hl.ranges = some rs) {n len : Nat} {b b' : List Char} {truncated : Bool}
    (hloop : derangedLoop n rs 0 b = some (truncated, len, b')) (hn : 1 ≤ n) (hlen : len ≤ n) :
    hostlistDerangedString hl n b = (put b' (len - 1) nul).map fun b =>
      (if truncated then -1 else ((len - 1 : Nat) : Int), b) := by
  have hidx : (if 0 < len then len - 1 else 0) = len - 1 := by
    split
    · rfl
    · omega
  have hne : len - 1 ≠ n := by omega
  rw [hostlistDerangedString]
  simp only [hrs, hloop, hidx, hne, or_false, Option.bind_eq_bind, Option.bind_some]
  cases put b' (len - 1) nul <;> rfl

/-- The text is right when the loop ends by itself. -/
theorem derangedString_right {hl : Hostlist} {rs : List HostRange} (hrs : hl.ranges = some rs)
    {n : Nat} (hn : 1 ≤ n) {b b' : List Char} (hb : b.length = n) (hb' : b'.length = n)
    (hfit : (separated (names rs)).length ≤ n) (hp : separated (names rs) <+: b')
    (hloop : derangedLoop n rs 0 b = some (false, (separated (names rs)).length, b')) :
    StringRight hostlistDerangedString (derangedText rs) hl n b := by
  have hlt := (separated_fits_iff hn).mp hfit
  have hlen : (separated (names rs)).length - 1 = (derangedText rs).length := by
    by_cases hnil : names rs = []
    · rw [derangedText, hnil]
      rfl
    · rw [separated_eq hnil, List.length_append, List.length_singleton, derangedText]
      omega
  have htext : derangedText rs <+: b' := by
    by_cases hnil : names rs = []
    · rw [derangedText, hnil]
      exact List.nil_prefix
    · rw [separated_eq hnil] at hp
      exact (List.prefix_append _ _).trans hp
  obtain ⟨b₂, hput, hlen₂, hp₂⟩ := put_end nul htext (by omega)
  refine ⟨(derangedText rs).length, b₂, ?_, by omega, Or.inr ⟨hlt, rfl, hp₂⟩⟩
  rw [hostlistDerangedString_of hrs hloop hn hfit, hlen, hput]
  rfl

/-- Behind a break the result is -1, which is right when the text does not fit. -/
theorem derangedString_truncated {hl : Hostlist} {rs : List HostRange}
    (hrs : hl.ranges = some rs) {n : Nat} (hn : 1 ≤ n) {b b' : List Char} (hb : b.length = n)
    (hb' : b'.length = n) (hloop : derangedLoop n rs 0 b = some (true, n, b')) :
    StringRight hostlistDerangedString (derangedText rs) hl n b ↔
      n ≤ (derangedText rs).length := by
  obtain ⟨b₂, hput, hlen₂⟩ := put_of_lt (b := b') (i := n - 1) nul (by omega)
  have hstr : hostlistDerangedString hl n b = some (-1, b₂) := by
    rw [hostlistDerangedString_of hrs hloop hn (Nat.le_refl n), hput]
    rfl
  constructor
  · rintro ⟨ret, b₁, hret, -, ⟨hlong, -⟩ | ⟨-, hneg, -⟩⟩
    · exact hlong
    · obtain ⟨rfl, rfl⟩ := Prod.mk.inj (Option.some.inj (hstr.symm.trans hret))
      omega
  · intro hlong
    exact ⟨-1, b₂, hstr, by omega, Or.inl ⟨hlong, rfl⟩⟩

theorem derangedString_right_iff {hl : Hostlist} {rs : List HostRange}
    (hrs : hl.ranges = some rs) (hwf : ∀ r ∈ rs, r.Wf) {n : Nat} (hn : 1 ≤ n) {b : List Char}
    (hb : b.length = n) :
    StringRight hostlistDerangedString (derangedText rs) hl n b ↔ DerangedFits n rs := by
  have hfits := @separated_fits_iff rs n hn
  obtain ⟨hover, hnone⟩ | ⟨hover, b', hb', hcase⟩ :=
    derangedLoop_cases hwf (List.nil_prefix (l := b)) (Nat.zero_le n) hb
  · rw [List.length_nil] at hnone
    constructor
    · rintro ⟨ret, b₁, hret, -⟩
      simp [hostlistDerangedString, hrs, hnone] at hret
    · exact fun h => absurd hover h.1
  · simp only [List.nil_append, List.length_nil] at hcase
    obtain ⟨hall, hlen, hp, hloop⟩ | ⟨hlong, hloop⟩ := hcase
    · constructor
      · exact fun _ => ⟨hover, fun _ => hall⟩
      · exact fun _ => derangedString_right hrs hn hb hb' hlen hp hloop
    · rw [derangedString_truncated hrs hn hb hb' hloop]
      constructor
      · exact fun h => ⟨hover, fun hlt => by omega⟩
      · rintro ⟨-, hall⟩
        by_contra hlt
        have hgt := hlong (hall (by omega))
        omega

/-- The compressed form is right for every buffer. -/
theorem rangedString_right {hl : Hostlist} {rs : List HostRange} (hrs : hl.ranges = some rs)
    {n : Nat} {b : List Char} (hb : b.length = n) :
    StringRight hostlistRangedString (rangedText rs) hl n b :=
  hostlistRangedString_spec hrs (Nat.le_of_eq hb.symm)

/-- Both printers are right for a buffer of `n` bytes exactly when the names are
printed right. -/
theorem strings_iff {hl : Hostlist} {rs : List HostRange} (hrs : hl.ranges = some rs)
    (hwf : ∀ r ∈ rs, r.Wf) {n : Nat} (hn : 1 ≤ n) (_ : n ≤ 2147483647) {b : List Char}
    (hb : b.length = n) :
    (StringRight hostlistDerangedString (derangedText rs) hl n b ∧
        StringRight hostlistRangedString (rangedText rs) hl n b) ↔ DerangedFits n rs := by
  rw [derangedString_right_iff hrs hwf hn hb]
  exact and_iff_left (rangedString_right hrs hb)

/-- Two ranges into a buffer that just holds the text and its NUL. -/
theorem strings_iff_eight :
    let rs := [hostrangeCreate ['a'] 1 2 1, hostrangeCreateSingle ['b']]
    StringRight hostlistDerangedString (derangedText rs) (Hostlist.ofSlots rs [] 3) 8
        (List.replicate 8 nul) ∧
      StringRight hostlistRangedString (rangedText rs) (Hostlist.ofSlots rs [] 3) 8
        (List.replicate 8 nul) := by
  intro rs
  refine (@strings_iff (Hostlist.ofSlots rs [] 3) rs rfl ?_ 8 (by decide) (by decide)
    (List.replicate 8 nul) rfl).mpr ⟨?_, ?_⟩
  · intro r hr
    rcases List.mem_pair.mp hr with rfl | rfl
    · exact ⟨by decide, by decide, by decide⟩
    · exact ⟨by decide, by decide, by decide⟩
  · intro h
    obtain h | ⟨-, h⟩ := overrun_cons.mp h
    · exact absurd h (by decide)
    obtain h | ⟨-, h⟩ := overrun_cons.mp h
    · exact absurd h (by decide)
    · exact not_overrun_nil h
  · intro _ r hr
    rcases List.mem_pair.mp hr with rfl | rfl <;> decide

/-- The separator behind the first of two hosts that ends the buffer. -/
theorem not_strings_two :
    let rs := [hostrangeCreateSingle ['a'], hostrangeCreateSingle ['b']]
    ¬ (StringRight hostlistDerangedString (derangedText rs) (Hostlist.ofSlots rs [] 2) 2
        [nul, nul] ∧
      StringRight hostlistRangedString (rangedText rs) (Hostlist.ofSlots rs [] 2) 2
        [nul, nul]) := by
  rintro rs ⟨⟨ret, b', hret, -⟩, -⟩
  have hnone : hostlistDerangedString (Hostlist.ofSlots rs [] 2) 2 [nul, nul] = none := rfl
  rw [hnone] at hret
  cases hret

end Slurm.Hosts
