import SlurmLite.Base.CLib

/-!
# Character buffers

A buffer is its list of cells; a write outside it is undefined (`none`).
Contents are described from the front: `out <+: b` says that the buffer `b`
starts with the text `out`.

* `put_of_lt`, `snprintf_of_le` — a write inside the buffer keeps its size and
  what stands before it, and leaves the text written behind that.
-/

namespace Base.Buffer

/-- The character that ends a C string. -/
def nul : Char := Char.ofNat 0

/-- The C string at the start of a buffer. -/
def cstr (b : List Char) : List Char := b.takeWhile (· ≠ nul)

/-- `b[i] = c`. -/
def put (b : List Char) (i : Nat) (c : Char) : Option (List Char) :=
  if i < b.length then some (b.set i c) else none

/-- `snprintf` of the text `s` at `i` with room for `n` characters: the buffer
and the length of the whole text. -/
def snprintf (b : List Char) (i n : Nat) (s : List Char) : Option (List Char × Nat) :=
  if n = 0 then some (b, s.length)
  else
    let t := s.take (n - 1) ++ [nul]
    if i + t.length ≤ b.length then
      some (b.take i ++ t ++ b.drop (i + t.length), s.length)
    else none

theorem cstr_of_prefix {s b : List Char} (hs : nul ∉ s) (h : s ++ [nul] <+: b) :
    cstr b = s := by
  obtain ⟨rest, rfl⟩ := h
  have hall : ∀ c ∈ s, decide (c ≠ nul) = true := by
    intro c hc
    simp only [decide_eq_true_eq]
    rintro rfl
    exact hs hc
  rw [cstr, List.append_assoc, List.takeWhile_append_of_pos hall]
  simp

theorem cstr_append {s : List Char} (rest : List Char) (hs : nul ∉ s) :
    cstr (s ++ rest) = s ++ cstr rest := by
  have hall : ∀ c ∈ s, decide (c ≠ nul) = true := by
    intro c hc
    simp only [decide_eq_true_eq]
    rintro rfl
    exact hs hc
  rw [cstr, List.takeWhile_append_of_pos hall]
  rfl

theorem cstr_of_not_mem {s : List Char} (h : nul ∉ s) : cstr s = s := by
  rw [cstr, List.takeWhile_eq_self_iff]
  intro c hc
  simpa using fun hnul : c = nul => h (hnul ▸ hc)

theorem put_of_lt {b : List Char} {i : Nat} (c : Char) (h : i < b.length) :
    ∃ b', put b i c = some b' ∧ b'.length = b.length := by
  refine ⟨b.set i c, ?_, List.length_set⟩
  rw [put, if_pos h]

/-- A write at the end of the text in the buffer extends the text. -/
theorem put_end {b out : List Char} (c : Char) (hout : out <+: b)
    (h : out.length < b.length) :
    ∃ b', put b out.length c = some b' ∧ b'.length = b.length ∧ out ++ [c] <+: b' := by
  obtain ⟨rest, rfl⟩ := hout
  refine ⟨_, if_pos h, List.length_set, ?_⟩
  rw [List.set_append_right _ _ (Nat.le_refl _), Nat.sub_self]
  cases rest with
  | nil => simp at h
  | cons a rest => exact ⟨rest, by simp⟩

theorem snprintf_of_le {b out : List Char} {n : Nat} (s : List Char) (hout : out <+: b)
    (h : out.length + n ≤ b.length) :
    ∃ b', snprintf b out.length n s = some (b', s.length) ∧ b'.length = b.length ∧
      out <+: b' ∧ (s.length < n → out ++ s ++ [nul] <+: b') := by
  by_cases hn : n = 0
  · refine ⟨b, if_pos hn, rfl, hout, fun hs => ?_⟩
    omega
  · have hlen : (s.take (n - 1) ++ [nul]).length ≤ n := by
      rw [List.length_append, List.length_take, List.length_singleton]
      omega
    have htake : b.take out.length = out := (List.prefix_iff_eq_take.mp hout).symm
    refine ⟨out ++ (s.take (n - 1) ++ [nul]) ++
      b.drop (out.length + (s.take (n - 1) ++ [nul]).length), ?_, ?_, ?_, ?_⟩
    · rw [snprintf, if_neg hn]
      simp only [htake]
      rw [if_pos (by omega)]
    · simp only [List.length_append, List.length_drop] at hlen ⊢
      omega
    · rw [List.append_assoc]
      exact List.prefix_append _ _
    · intro hs
      rw [List.take_of_length_le (by omega), ← List.append_assoc]
      exact List.prefix_append _ _

end Base.Buffer
