import SlurmLite.Base.CLib
import Mathlib.Data.List.Basic

/-!
# Reading lines through a buffer

`fgets` and what it makes of a text:

* a text is cut into lines at its newlines, the last one with or without one;
* a line that does not fit the buffer comes in several pieces, each but the
  last a whole buffer without a newline;
* a reader that pays one piece for each line, and is handed whole buffers on
  top of that, falls behind by the buffers it was handed: its backlog.
-/

namespace Base.Lines

/-! ## Lines -/

/-- The lines of a text, without their newlines. -/
def linesOf : List Char → List (List Char)
  | [] => []
  | c :: f =>
    if c = '\n' then [] :: linesOf f
    else
      match linesOf f with
      | [] => [[c]]
      | l :: ls => (c :: l) :: ls

theorem linesOf_line {l : List Char} (hl : '\n' ∉ l) (f : List Char) :
    linesOf (l ++ '\n' :: f) = l :: linesOf f := by
  induction l with
  | nil => rw [List.nil_append, linesOf, if_pos rfl]
  | cons c l ih =>
    rw [List.mem_cons, not_or] at hl
    rw [List.cons_append, linesOf, if_neg (Ne.symm hl.1), ih hl.2]

theorem linesOf_last {l : List Char} (hl : '\n' ∉ l) (hne : l ≠ []) : linesOf l = [l] := by
  induction l with
  | nil => exact absurd rfl hne
  | cons c l ih =>
    rw [List.mem_cons, not_or] at hl
    rw [linesOf, if_neg (Ne.symm hl.1)]
    by_cases hnil : l = []
    · rw [hnil]
      rfl
    · rw [ih hl.2 hnil]

/-- A text is empty, a last line without its newline, or a line and a text. -/
theorem text_cases (f : List Char) :
    f = [] ∨ ('\n' ∉ f ∧ f ≠ []) ∨ ∃ l f', '\n' ∉ l ∧ f = l ++ '\n' :: f' := by
  by_cases hmem : '\n' ∈ f
  · obtain ⟨l, f', hf, hl⟩ := List.eq_append_cons_of_mem hmem
    exact Or.inr (Or.inr ⟨l, f', hl, hf⟩)
  · by_cases hnil : f = []
    · exact Or.inl hnil
    · exact Or.inr (Or.inl ⟨hmem, hnil⟩)

/-- Induction over a text line by line. -/
@[elab_as_elim]
theorem lines_induction {P : List Char → Prop} (f : List Char) (nil : P [])
    (last : ∀ l, '\n' ∉ l → l ≠ [] → P l)
    (line : ∀ l f, '\n' ∉ l → P f → P (l ++ '\n' :: f)) : P f := by
  generalize hn : f.length = n
  induction n using Nat.strong_induction_on generalizing f with
  | _ n ih =>
    rcases text_cases f with rfl | ⟨hl, hne⟩ | ⟨l, f', hl, rfl⟩
    · exact nil
    · exact last f hl hne
    · refine line l f' hl (ih f'.length ?_ f' rfl)
      rw [← hn, List.length_append, List.length_cons]
      omega

/-! ## `fgets` -/

/-- At most `room` characters of a text, up to and with its first newline, and
the text after them. -/
def readUpTo : Nat → List Char → List Char × List Char
  | 0, f => ([], f)
  | _ + 1, [] => ([], [])
  | room + 1, c :: f =>
    if c = '\n' then ([c], f) else (c :: (readUpTo room f).1, (readUpTo room f).2)

/-- `fgets` with a buffer of `n` bytes, `none` at the end of the file. -/
def fgets (n : Nat) (f : List Char) : Option (List Char × List Char) :=
  if f = [] then none else some (readUpTo (n - 1) f)

theorem readUpTo_line {l : List Char} {room : Nat} (hl : '\n' ∉ l) (hlen : l.length < room)
    (f : List Char) : readUpTo room (l ++ '\n' :: f) = (l ++ ['\n'], f) := by
  induction l generalizing room with
  | nil =>
    obtain ⟨room, rfl⟩ := Nat.exists_eq_succ_of_ne_zero (by omega : room ≠ 0)
    rw [List.nil_append, readUpTo, if_pos rfl]
    rfl
  | cons c l ih =>
    obtain ⟨room, rfl⟩ := Nat.exists_eq_succ_of_ne_zero (by omega : room ≠ 0)
    rw [List.mem_cons, not_or] at hl
    rw [List.length_cons] at hlen
    rw [List.cons_append, readUpTo, if_neg (Ne.symm hl.1), ih hl.2 (by omega)]
    rfl

theorem readUpTo_full {l : List Char} (hl : '\n' ∉ l) (f : List Char) :
    readUpTo l.length (l ++ f) = (l, f) := by
  induction l with
  | nil => rfl
  | cons c l ih =>
    rw [List.mem_cons, not_or] at hl
    rw [List.cons_append, List.length_cons, readUpTo, if_neg (Ne.symm hl.1), ih hl.2]

theorem readUpTo_last {l : List Char} {room : Nat} (hl : '\n' ∉ l) (hlen : l.length ≤ room) :
    readUpTo room l = (l, []) := by
  induction l generalizing room with
  | nil => cases room <;> rfl
  | cons c l ih =>
    rw [List.length_cons] at hlen
    obtain ⟨room, rfl⟩ := Nat.exists_eq_succ_of_ne_zero (by omega : room ≠ 0)
    rw [List.mem_cons, not_or] at hl
    rw [readUpTo, if_neg (Ne.symm hl.1), ih hl.2 (by omega)]

theorem length_readUpTo {room : Nat} (hroom : 0 < room) {f : List Char} (hf : f ≠ []) :
    (readUpTo room f).2.length < f.length := by
  induction f generalizing room with
  | nil => exact absurd rfl hf
  | cons c f ih =>
    obtain ⟨room, rfl⟩ := Nat.exists_eq_succ_of_ne_zero (by omega : room ≠ 0)
    rw [readUpTo]
    split
    · exact Nat.lt_succ_self _
    · rcases room with _ | room
      · exact Nat.lt_succ_self _
      · rcases f with _ | ⟨d, f⟩
        · exact Nat.lt_succ_self _
        · exact Nat.lt_succ_of_lt (ih (Nat.succ_pos _) (List.cons_ne_nil _ _))

theorem readUpTo_append (room : Nat) (f : List Char) :
    (readUpTo room f).1 ++ (readUpTo room f).2 = f := by
  induction f generalizing room with
  | nil => cases room <;> rfl
  | cons c f ih =>
    cases room with
    | zero => rfl
    | succ room =>
      rw [readUpTo]
      split
      · rfl
      · exact congrArg _ (ih room)

/-- The strings that successive `fgets` return, over at most `fuel` calls. -/
def piecesIn (n : Nat) : Nat → List Char → List (List Char)
  | 0, _ => []
  | fuel + 1, f =>
    match fgets n f with
    | none => []
    | some (piece, f') => piece :: piecesIn n fuel f'

/-- The strings that successive `fgets` return up to the end of the file. -/
def pieces (n : Nat) (f : List Char) : List (List Char) := piecesIn n f.length f

@[simp] theorem pieces_nil (n : Nat) : pieces n [] = [] := rfl

/-- Fuel for every character is fuel enough. -/
theorem piecesIn_fuel {n : Nat} (hn : 1 < n) {fuel fuel' : Nat} {f : List Char}
    (hf : f.length ≤ fuel) (hf' : f.length ≤ fuel') :
    piecesIn n fuel f = piecesIn n fuel' f := by
  induction fuel generalizing fuel' f with
  | zero =>
    obtain rfl : f = [] := List.eq_nil_of_length_eq_zero (by omega)
    cases fuel' <;> rfl
  | succ fuel ih =>
    by_cases hnil : f = []
    · rw [hnil]
      cases fuel' <;> rfl
    · have hpos := List.length_pos_iff.mpr hnil
      have hlt := @length_readUpTo (n - 1) (by omega) f hnil
      obtain ⟨fuel', rfl⟩ := Nat.exists_eq_succ_of_ne_zero (by omega : fuel' ≠ 0)
      simp only [piecesIn, fgets, if_neg hnil]
      exact congrArg _ (ih (by omega) (by omega))

theorem pieces_of_ne_nil {n : Nat} (hn : 1 < n) {f : List Char} (hf : f ≠ []) :
    pieces n f = (readUpTo (n - 1) f).1 :: pieces n (readUpTo (n - 1) f).2 := by
  have hlt := @length_readUpTo (n - 1) (by omega) f hf
  rw [pieces, piecesIn_fuel hn (Nat.le_refl _) (by omega : f.length ≤ f.length - 1 + 1),
    piecesIn, fgets, if_neg hf]
  exact congrArg _ (piecesIn_fuel hn (by omega) (Nat.le_refl _))

/-- A piece holds something, and nothing that the text does not. -/
theorem mem_pieces {n : Nat} (hn : 1 < n) {f piece : List Char} (h : piece ∈ pieces n f) :
    piece ≠ [] ∧ ∀ c ∈ piece, c ∈ f := by
  generalize hlen : f.length = k
  induction k using Nat.strong_induction_on generalizing f with
  | _ k ih =>
    by_cases hf : f = []
    · rw [hf, pieces_nil] at h
      exact absurd h List.not_mem_nil
    · have hlt := @length_readUpTo (n - 1) (by omega) f hf
      have happ := readUpTo_append (n - 1) f
      rw [pieces_of_ne_nil hn hf, List.mem_cons] at h
      rcases h with rfl | h
      · constructor
        · intro hnil
          rw [hnil, List.nil_append] at happ
          exact absurd (congrArg List.length happ) (by omega)
        · intro c hc
          rw [← happ]
          exact List.mem_append_left _ hc
      · obtain ⟨hne, hmem⟩ := ih _ (by omega) h rfl
        refine ⟨hne, fun c hc => ?_⟩
        rw [← happ]
        exact List.mem_append_right _ (hmem c hc)

/-- A line that fits is one piece, with its newline. -/
theorem pieces_line {n : Nat} {l : List Char} (hl : '\n' ∉ l) (hlen : l.length + 1 < n)
    (f : List Char) : pieces n (l ++ '\n' :: f) = (l ++ ['\n']) :: pieces n f := by
  rw [pieces_of_ne_nil (by omega) (by simp), readUpTo_line hl (by omega)]

/-- A whole buffer without a newline is one piece. -/
theorem pieces_full {n : Nat} (hn : 1 < n) {l : List Char} (hl : '\n' ∉ l)
    (hlen : l.length + 1 = n) (f : List Char) : pieces n (l ++ f) = l :: pieces n f := by
  have hne : l ++ f ≠ [] := by
    intro h
    rw [List.append_eq_nil_iff] at h
    rw [h.1, List.length_nil] at hlen
    omega
  rw [pieces_of_ne_nil hn hne, show n - 1 = l.length by omega, readUpTo_full hl]

/-- A short last line is the last piece. -/
theorem pieces_last {n : Nat} {l : List Char} (hl : '\n' ∉ l) (hne : l ≠ [])
    (hlen : l.length + 1 < n) : pieces n l = [l] := by
  rw [pieces_of_ne_nil (by omega) hne, readUpTo_last hl (by omega), pieces_nil]

/-- A text of whole lines. -/
def Ended (f : List Char) : Prop := f = [] ∨ f.getLast? = some '\n'

theorem Ended.of_cons {c d : Char} {f : List Char} (h : Ended (c :: d :: f)) : Ended (d :: f) := by
  rcases h with h | h
  · cases h
  · exact Or.inr (by rwa [List.getLast?_cons_cons] at h)

/-- What follows whole lines does not change how they are read. -/
theorem readUpTo_ended {f : List Char} (h : Ended f) (hne : f ≠ []) (room : Nat)
    (rest : List Char) :
    readUpTo room (f ++ rest) = ((readUpTo room f).1, (readUpTo room f).2 ++ rest) ∧
      Ended (readUpTo room f).2 := by
  induction f generalizing room with
  | nil => exact absurd rfl hne
  | cons c f ih =>
    cases room with
    | zero => exact ⟨rfl, h⟩
    | succ room =>
      rw [List.cons_append, readUpTo, readUpTo]
      by_cases hc : c = '\n'
      · rw [if_pos hc, if_pos hc]
        refine ⟨rfl, ?_⟩
        rcases f with _ | ⟨d, f⟩
        · exact Or.inl rfl
        · exact h.of_cons
      · rcases f with _ | ⟨d, f⟩
        · rcases h with h | h
          · cases h
          · exact absurd (by simpa using h) hc
        · obtain ⟨hread, hended⟩ := ih h.of_cons (List.cons_ne_nil _ _) room
          rw [if_neg hc, if_neg hc, hread]
          exact ⟨rfl, hended⟩

theorem pieces_append {n : Nat} (hn : 1 < n) {f : List Char} (h : Ended f) (rest : List Char) :
    pieces n (f ++ rest) = pieces n f ++ pieces n rest := by
  generalize hlen : f.length = k
  induction k using Nat.strong_induction_on generalizing f with
  | _ k ih =>
    by_cases hf : f = []
    · rw [hf]
      rfl
    · have hlt := @length_readUpTo (n - 1) (by omega) f hf
      obtain ⟨hread, hended⟩ := readUpTo_ended h hf (n - 1) rest
      rw [pieces_of_ne_nil hn (List.append_ne_nil_of_left_ne_nil hf rest), pieces_of_ne_nil hn hf,
        hread, ih _ (by omega) hended rfl]
      rfl

/-- A piece has no newline but at its end. -/
theorem newline_readUpTo (room : Nat) (f : List Char) :
    '\n' ∉ (readUpTo room f).1.dropLast := by
  induction f generalizing room with
  | nil => cases room <;> exact List.not_mem_nil
  | cons c f ih =>
    cases room with
    | zero => exact List.not_mem_nil
    | succ room =>
      rw [readUpTo]
      split
      · exact List.not_mem_nil
      next hc =>
        cases hr : (readUpTo room f).1 with
        | nil => exact List.not_mem_nil
        | cons d t =>
          have := ih room
          rw [hr] at this
          simp only [List.dropLast_cons_cons, List.mem_cons, not_or]
          exact ⟨Ne.symm hc, this⟩

theorem newline_pieces {n : Nat} (hn : 1 < n) {f piece : List Char} (h : piece ∈ pieces n f) :
    '\n' ∉ piece.dropLast := by
  generalize hlen : f.length = k
  induction k using Nat.strong_induction_on generalizing f with
  | _ k ih =>
    by_cases hf : f = []
    · rw [hf, pieces_nil] at h
      exact absurd h List.not_mem_nil
    · have hlt := @length_readUpTo (n - 1) (by omega) f hf
      rw [pieces_of_ne_nil hn hf, List.mem_cons] at h
      rcases h with rfl | h
      · exact newline_readUpTo _ _
      · exact ih _ (by omega) h rfl

/-! ## The backlog -/

/-- The whole buffers of `room` characters that a line fills. -/
def wholeBuffers (room : Nat) (l : List Char) : Nat := l.length / room

theorem wholeBuffers_eq_zero_iff {room : Nat} (hroom : 0 < room) {l : List Char} :
    wholeBuffers room l = 0 ↔ l.length < room := by
  rw [wholeBuffers, Nat.div_eq_zero_iff]
  omega

/-- What is owed after some lines by a reader that owed `owed` before: every
line adds its whole buffers and pays one piece, if one is owed. -/
def backlog (room : Nat) : Nat → List (List Char) → Nat
  | owed, [] => owed
  | owed, l :: ls => backlog room (owed + wholeBuffers room l - 1) ls

theorem backlog_append (room owed : Nat) (ls ls' : List (List Char)) :
    backlog room owed (ls ++ ls') = backlog room (backlog room owed ls) ls' := by
  induction ls generalizing owed with
  | nil => rfl
  | cons l ls ih => exact ih _

/-- The whole buffers of all the lines of a stretch. -/
def stretchBuffers (room : Nat) (stretch : List (List Char)) : Nat :=
  (stretch.map (wholeBuffers room)).sum

/-- Who starts with nothing owed owes at most `k` exactly when no stretch of
the last lines has more than `k` whole buffers on top of one for each line. -/
theorem backlog_le_iff (room k : Nat) (ls : List (List Char)) :
    backlog room 0 ls ≤ k ↔
      ∀ earlier stretch, ls = earlier ++ stretch →
        stretchBuffers room stretch ≤ stretch.length + k := by
  induction ls using List.reverseRecOn generalizing k with
  | nil =>
    constructor
    · intro _ earlier stretch h
      rw [(List.append_eq_nil_iff.mp h.symm).2]
      exact Nat.zero_le _
    · exact fun _ => Nat.zero_le _
  | append_singleton ls l ih =>
    have hstep : backlog room 0 (ls ++ [l]) = backlog room 0 ls + wholeBuffers room l - 1 :=
      backlog_append room 0 ls [l]
    have hsnoc : ∀ st, stretchBuffers room (st ++ [l]) =
        stretchBuffers room st + wholeBuffers room l := by
      intro st
      simp [stretchBuffers]
    rw [hstep]
    constructor
    · intro h earlier stretch hsplit
      rcases List.eq_nil_or_concat' stretch with rfl | ⟨st, l', rfl⟩
      · exact Nat.zero_le _
      · rw [← List.append_assoc] at hsplit
        obtain ⟨hls, hl⟩ := List.append_inj' hsplit rfl
        obtain rfl : l = l' := by simpa using hl
        have hst := (ih (k + 1 - wholeBuffers room l)).mp (by omega) earlier st hls
        rw [hsnoc, List.length_append, List.length_singleton]
        omega
    · intro h
      have hlast := h ls [l] rfl
      have hone : stretchBuffers room [l] = wholeBuffers room l := by simp [stretchBuffers]
      rw [hone, List.length_singleton] at hlast
      have hls := (ih (k + 1 - wholeBuffers room l)).mpr fun earlier st hsplit => by
        have hst := h earlier (st ++ [l]) (by rw [hsplit, List.append_assoc])
        rw [hsnoc, List.length_append, List.length_singleton] at hst
        omega
      omega

end Base.Lines
