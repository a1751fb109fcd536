import Mathlib

/-!
# Directories and the files they name

A directory maps paths to file numbers, and a file number to the bytes of
that file, so that two paths can name one file. Each call takes effect or
not: `unlink` and `link` carry a flag that says so, and a `link` onto a path
that exists has no effect.

* **Frame**: every operation leaves the other paths, or the other files,
  alone.
* **Replacing a file**: `shuffle` renames through `link` and `unlink`;
  `shuffle_dir_reg` says which file the target path names afterwards.
-/

namespace Base.Files

variable {Path : Type}

/-- A file system: what each path names, and the bytes of each file. Every
file named is older than `fresh`. -/
structure FileSystem (Path : Type) where
  dir : Path → Option Nat
  bytes : Nat → List Char
  fresh : Nat
  named : ∀ path file, dir path = some file → file < fresh

namespace FileSystem

/-- What a path reads as. -/
def read (fs : FileSystem Path) (path : Path) : Option (List Char) :=
  (fs.dir path).map fs.bytes

/-- More bytes at the end of a file. -/
def append (fs : FileSystem Path) (file : Nat) (more : List Char) : FileSystem Path :=
  { fs with bytes := Function.update fs.bytes file (fs.bytes file ++ more) }

@[simp] theorem append_bytes_self (fs : FileSystem Path) (file : Nat) (more : List Char) :
    (fs.append file more).bytes file = fs.bytes file ++ more := Function.update_self ..

theorem append_append (fs : FileSystem Path) (file : Nat) (more rest : List Char) :
    (fs.append file more).append file rest = fs.append file (more ++ rest) := by
  simp [append]

theorem append_bytes_of_ne (fs : FileSystem Path) {file other : Nat} (more : List Char)
    (h : other ≠ file) : (fs.append file more).bytes other = fs.bytes other :=
  Function.update_of_ne h ..

variable [DecidableEq Path]

/-- `creat`: an existing file is emptied, a new one is made. -/
def creat (fs : FileSystem Path) (path : Path) : FileSystem Path :=
  match fs.dir path with
  | some file => { fs with bytes := Function.update fs.bytes file [] }
  | none =>
    { dir := Function.update fs.dir path (some fs.fresh)
      bytes := Function.update fs.bytes fs.fresh []
      fresh := fs.fresh + 1
      named := by
        intro p file hfile
        by_cases hp : p = path
        · subst hp
          rw [Function.update_self] at hfile
          obtain rfl := Option.some.inj hfile
          exact Nat.lt_succ_self _
        · rw [Function.update_of_ne hp] at hfile
          exact Nat.lt_succ_of_lt (fs.named p file hfile) }

/-- The file `creat` opens. -/
def created (fs : FileSystem Path) (path : Path) : Nat := (fs.dir path).getD fs.fresh

/-- `unlink`, when it takes effect. -/
def unlink (fs : FileSystem Path) (takes : Bool) (path : Path) : FileSystem Path :=
  { fs with
    dir := if takes then Function.update fs.dir path none else fs.dir
    named := by
      intro p file hfile
      cases takes with
      | false => exact fs.named p file hfile
      | true =>
        by_cases hp : p = path
        · subst hp
          simp at hfile
        · exact fs.named p file (by simpa [hp] using hfile) }

/-- `link(from, to)`, when it takes effect: the file must exist and `to` must
not. -/
def link (fs : FileSystem Path) (takes : Bool) (source target : Path) : FileSystem Path :=
  { fs with
    dir := if takes ∧ fs.dir target = none then
        Function.update fs.dir target (fs.dir source) else fs.dir
    named := by
      intro p file hfile
      split at hfile
      · by_cases hp : p = target
        · subst hp
          rw [Function.update_self] at hfile
          exact fs.named source file hfile
        · rw [Function.update_of_ne hp] at hfile
          exact fs.named p file hfile
      · exact fs.named p file hfile }

/-! ## Frame -/

theorem unlink_dir_self (fs : FileSystem Path) (takes : Bool) (path : Path) :
    (fs.unlink takes path).dir path = if takes then none else fs.dir path := by
  cases takes <;> simp [unlink]

theorem unlink_dir_of_ne (fs : FileSystem Path) (takes : Bool) {path other : Path}
    (h : other ≠ path) : (fs.unlink takes path).dir other = fs.dir other := by
  cases takes <;> simp [unlink, h]

theorem link_dir_self (fs : FileSystem Path) (takes : Bool) (source target : Path) :
    (fs.link takes source target).dir target =
      if takes ∧ fs.dir target = none then fs.dir source else fs.dir target := by
  simp only [link]
  split
  · exact Function.update_self ..
  · rfl

theorem link_dir_of_ne (fs : FileSystem Path) (takes : Bool) {source target other : Path}
    (h : other ≠ target) : (fs.link takes source target).dir other = fs.dir other := by
  simp only [link]
  split
  · exact Function.update_of_ne h ..
  · rfl

theorem creat_dir_self (fs : FileSystem Path) (path : Path) :
    (fs.creat path).dir path = some (fs.created path) := by
  unfold creat created
  split
  · rename_i file hfile
    simp [hfile]
  · rename_i hnone
    simp [hnone]

theorem creat_dir_of_ne (fs : FileSystem Path) {path other : Path} (h : other ≠ path) :
    (fs.creat path).dir other = fs.dir other := by
  unfold creat
  split
  · rfl
  · exact Function.update_of_ne h ..

theorem creat_bytes_created (fs : FileSystem Path) (path : Path) :
    (fs.creat path).bytes (fs.created path) = [] := by
  unfold creat created
  split
  · rename_i file hfile
    simp [hfile]
  · rename_i hnone
    simp [hnone]

theorem creat_bytes_of_ne (fs : FileSystem Path) {path : Path} {file : Nat}
    (h : file ≠ fs.created path) : (fs.creat path).bytes file = fs.bytes file := by
  unfold created at h
  unfold creat
  split
  · rename_i made hmade
    rw [hmade] at h
    exact Function.update_of_ne h ..
  · rename_i hnone
    rw [hnone] at h
    exact Function.update_of_ne h ..

omit [DecidableEq Path] in
/-- Another path names the file `creat` opens exactly when it did before. -/
theorem dir_eq_created_iff (fs : FileSystem Path) {path other : Path} :
    fs.dir other = some (fs.created path) ↔
      fs.dir other ≠ none ∧ fs.dir other = fs.dir path := by
  unfold created
  cases hpath : fs.dir path with
  | some file => simp +contextual
  | none =>
    constructor
    · intro h
      have hlt := fs.named other _ h
      exact absurd hlt (Nat.lt_irrefl _)
    · exact fun h => absurd h.2 h.1

/-! ## Replacing a file -/

/-- Which of the calls that replace a file take effect. -/
structure Takes where
  unlinkOld : Bool
  linkOld : Bool
  unlinkReg : Bool
  linkReg : Bool
  unlinkNew : Bool
deriving DecidableEq

/-- The path `reg` keeps its file under `old` and gets the file of `new`. -/
def shuffle (fs : FileSystem Path) (takes : Takes) (old reg new : Path) : FileSystem Path :=
  ((((fs.unlink takes.unlinkOld old).link takes.linkOld reg old).unlink takes.unlinkReg reg).link
    takes.linkReg new reg).unlink takes.unlinkNew new

@[simp] theorem shuffle_bytes (fs : FileSystem Path) (takes : Takes) (old reg new : Path) :
    (fs.shuffle takes old reg new).bytes = fs.bytes := rfl

/-- What `reg` names after the shuffle: its old file when that could not be
unlinked, otherwise what the last `link` gives it. -/
theorem shuffle_dir_reg (fs : FileSystem Path) (takes : Takes) {old reg new : Path}
    (ho : reg ≠ old) (hn : reg ≠ new) (hno : new ≠ old) :
    (fs.shuffle takes old reg new).dir reg =
      if takes.unlinkReg ∨ fs.dir reg = none then
        (if takes.linkReg then fs.dir new else none)
      else fs.dir reg := by
  have hreg : ((fs.unlink takes.unlinkOld old).link takes.linkOld reg old).dir reg =
      fs.dir reg := by
    rw [link_dir_of_ne _ _ ho, unlink_dir_of_ne _ _ ho]
  have hnew : (((fs.unlink takes.unlinkOld old).link takes.linkOld reg old).unlink takes.unlinkReg
      reg).dir new = fs.dir new := by
    rw [unlink_dir_of_ne _ _ hn.symm, link_dir_of_ne _ _ hno, unlink_dir_of_ne _ _ hno]
  rw [shuffle, unlink_dir_of_ne _ _ hn, link_dir_self, hnew, unlink_dir_self, hreg]
  cases takes.unlinkReg <;> cases takes.linkReg <;> cases fs.dir reg <;> simp

end FileSystem

end Base.Files
