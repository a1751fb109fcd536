import Mathlib

/-!
# Bytes

Numbers as big-endian bytes and back, and the C strings a byte array can hold.

* **Round trip** (`ofBe_toBe`): `n` bytes hold a number below `256 ^ n`.
* **Strings** (`CString`): a string has no NUL in it, so that the terminated
  text is read back (`CString.ofBytes_terminated`).
-/

namespace Base.Bytes

/-- `v` as `n` bytes, the most significant first. -/
def toBe : Nat → Nat → List UInt8
  | 0, _ => []
  | n + 1, v => UInt8.ofNat (v / 256 ^ n) :: toBe n v

/-- The number big-endian bytes denote. -/
def ofBe (bs : List UInt8) : Nat := bs.foldl (fun v b => 256 * v + b.toNat) 0

@[simp] theorem length_toBe (n v : Nat) : (toBe n v).length = n := by
  induction n with
  | zero => rfl
  | succ n ih => rw [toBe, List.length_cons, ih]

theorem foldl_toBe (n v a : Nat) :
    (toBe n v).foldl (fun v b => 256 * v + b.toNat) a = 256 ^ n * a + v % 256 ^ n := by
  induction n generalizing a with
  | zero => simp [toBe, Nat.mod_one]
  | succ n ih =>
    have hbyte : (UInt8.ofNat (v / 256 ^ n)).toNat = v / 256 ^ n % 256 := by
      simp [UInt8.toNat_ofNat']
    have hmod : v % 256 ^ (n + 1) = 256 ^ n * (v / 256 ^ n % 256) + v % 256 ^ n := by
      rw [Nat.pow_succ, Nat.mod_mul, Nat.add_comm]
    rw [toBe, List.foldl_cons, ih, hbyte, hmod, Nat.pow_succ]
    ring

theorem ofBe_toBe {n v : Nat} (h : v < 256 ^ n) : ofBe (toBe n v) = v := by
  rw [ofBe, foldl_toBe, Nat.mul_zero, Nat.zero_add, Nat.mod_eq_of_lt h]

/-! ## Strings -/

/-- A C string, without its terminating NUL. -/
def CString : Type := { s : List UInt8 // 0 ∉ s }

instance : DecidableEq CString := inferInstanceAs (DecidableEq { s : List UInt8 // 0 ∉ s })

namespace CString

/-- The string that starts a byte array. -/
def ofBytes (bs : List UInt8) : CString :=
  ⟨bs.takeWhile (· ≠ 0), fun h => by
    have := List.mem_takeWhile_imp h
    simp at this⟩

/-- The string with its terminating NUL. -/
def terminated (s : CString) : List UInt8 := s.1 ++ [0]

@[simp] theorem ofBytes_terminated (s : CString) : ofBytes s.terminated = s := by
  apply Subtype.ext
  show (s.1 ++ [0]).takeWhile (· ≠ 0) = s.1
  have hall : ∀ c ∈ s.1, (decide (c ≠ 0)) = true := by
    intro c hc
    have hne : c ≠ 0 := by
      rintro rfl
      exact s.2 hc
    simp [hne]
  rw [List.takeWhile_append_of_pos hall]
  simp

theorem length_terminated (s : CString) : s.terminated.length = s.1.length + 1 := by
  simp [terminated]

/-- A byte array is at least as long as its string with the NUL, unless the NUL is
missing. -/
theorem length_ofBytes_le (bs : List UInt8) : (ofBytes bs).1.length ≤ bs.length :=
  (List.takeWhile_sublist _).length_le

end CString

end Base.Bytes
