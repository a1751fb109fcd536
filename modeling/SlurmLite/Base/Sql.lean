import Mathlib

/-!
# Literals and parentheses of a query text

A query is read as the characters outside of its single-quoted literals and
the literals as they are written. In a literal a backslash takes the next
character along, and so does a quote that stands before a quote.

* **Values** (`Inside`): the texts that a pair of quotes holds entirely;
  `lex_quoted` reads such a literal back, `inside_of_lex` is the converse.
* **Templates** (`Frag`): fixed text and terms `column='value'`; a template
  reads as its own tokens exactly when its values are inside (`lex_text`,
  `inside_of_lex_text`).
* **Nesting** (`nest`): the depth of parentheses outside of literals.
-/

namespace Base.Sql

/-- What a query reads as: characters outside of literals, and literals. -/
inductive Tok where
  | ch (c : Char)
  | lit (t : List Char)
deriving DecidableEq

/-- The literals of a query. -/
def literals (toks : List Tok) : List (List Char) :=
  toks.filterMap fun
    | .ch _ => none
    | .lit t => some t

/-- The tokens of a query text, read from outside of a literal or from inside of one, with
the part read and whether the next character is taken along. There is no result when the
last literal does not end. -/
def lex : Option (List Char × Bool) → List Char → Option (List Tok)
  | none, [] => some []
  | some _, [] => none
  | none, c :: q => if c = '\'' then lex (some ([], false)) q else (lex none q).map (.ch c :: ·)
  | some (l, true), c :: q => lex (some (l ++ [c], false)) q
  | some (l, false), c :: q =>
    if c = '\\' ∨ c = '\'' ∧ q.head? = some '\'' then lex (some (l ++ [c], true)) q
    else if c = '\'' then (lex none q).map (.lit l :: ·)
    else lex (some (l ++ [c], false)) q

/-- A text that does not end the literal it is in and does not end within an escape. -/
def Within : Bool → List Char → Prop
  | odd, [] => odd = false
  | true, _ :: e => Within false e
  | false, c :: e =>
    if c = '\\' ∨ c = '\'' ∧ e.head? = some '\'' then Within true e
    else c ≠ '\'' ∧ Within false e

/-- A value that stays between the quotes it is placed in. -/
def Inside (e : List Char) : Prop := Within false e

/-! ## Reading literals -/

section Literals

variable {l e q t : List Char} {odd : Bool} {toks : List Tok}

theorem lex_within (h : Within odd e) (hq : q.head? ≠ some '\'') :
    lex (some (l, odd)) (e ++ '\'' :: q) = (lex none q).map (.lit (l ++ e) :: ·) := by
  induction e generalizing l odd with
  | nil =>
    obtain rfl : odd = false := h
    have hend : ¬('\'' = '\\' ∨ '\'' = '\'' ∧ q.head? = some '\'') := by
      rintro (h | ⟨-, h⟩)
      · exact absurd h (by decide)
      · exact hq h
    rw [List.nil_append, lex, if_neg hend, if_pos rfl, List.append_nil]
  | cons c e ih =>
    have hl : l ++ c :: e = (l ++ [c]) ++ e := by rw [List.append_assoc, List.singleton_append]
    rw [List.cons_append, hl]
    cases odd with
    | true =>
      rw [lex]
      exact ih h
    | false =>
      rw [Within] at h
      rw [lex]
      split at h
      · rename_i hesc
        have hesc' : c = '\\' ∨ c = '\'' ∧ (e ++ '\'' :: q).head? = some '\'' := by
          refine hesc.imp_right fun ⟨hc, he⟩ => ⟨hc, ?_⟩
          rw [List.head?_append, he]
          rfl
        rw [if_pos hesc']
        exact ih h
      · rename_i hesc
        have hesc' : ¬(c = '\\' ∨ c = '\'' ∧ (e ++ '\'' :: q).head? = some '\'') := by
          rintro (hc | ⟨hc, -⟩)
          · exact hesc (Or.inl hc)
          · exact h.1 hc
        rw [if_neg hesc', if_neg h.1]
        exact ih h.2

/-- What is read as a literal is a text within it, the quote and the rest. -/
theorem within_of_lex (h : lex (some (l, odd)) t = some toks) :
    ∃ e q toks', t = e ++ '\'' :: q ∧ q.head? ≠ some '\'' ∧ toks = .lit (l ++ e) :: toks' ∧
      Within odd e ∧ lex none q = some toks' := by
  induction t generalizing l odd with
  | nil => cases h
  | cons c t ih =>
    have hnext : ∀ {e : List Char}, l ++ [c] ++ e = l ++ c :: e := by
      intro e
      rw [List.append_assoc, List.singleton_append]
    cases odd with
    | true =>
      rw [lex] at h
      obtain ⟨e, q, toks', rfl, hq, rfl, hw, hrest⟩ := ih h
      exact ⟨c :: e, q, toks', rfl, hq, by rw [hnext], hw, hrest⟩
    | false =>
      rw [lex] at h
      split at h
      · rename_i hesc
        obtain ⟨e, q, toks', rfl, hq, rfl, hw, hrest⟩ := ih h
        refine ⟨c :: e, q, toks', rfl, hq, by rw [hnext], ?_, hrest⟩
        rw [Within]
        by_cases hc : c = '\\'
        · rwa [if_pos (Or.inl hc)]
        · -- the quote taken along is not the one that ends the literal
          have hquote := hesc.resolve_left hc
          cases e with
          | nil => exact absurd hw (by simp [Within])
          | cons d e => rwa [if_pos (Or.inr ⟨hquote.1, hquote.2⟩)]
      · rename_i hesc
        split at h
        · rename_i hc
          obtain ⟨toks', htoks', rfl⟩ := Option.map_eq_some_iff.mp h
          refine ⟨[], t, toks', by rw [hc, List.nil_append], ?_, by rw [List.append_nil], rfl,
            htoks'⟩
          exact fun ht => hesc (Or.inr ⟨hc, ht⟩)
        · rename_i hc
          obtain ⟨e, q, toks', rfl, hq, rfl, hw, hrest⟩ := ih h
          refine ⟨c :: e, q, toks', rfl, hq, by rw [hnext], ?_, hrest⟩
          rw [Within, if_neg]
          · exact ⟨hc, hw⟩
          · rintro (h1 | ⟨h1, -⟩)
            · exact hesc (Or.inl h1)
            · exact hc h1

theorem lex_quoted (h : Inside e) (hq : q.head? ≠ some '\'') :
    lex none ('\'' :: e ++ '\'' :: q) = (lex none q).map (.lit e :: ·) := by
  rw [List.cons_append, lex, if_pos rfl, lex_within h hq, List.nil_append]

/-- A value that is read back as the first literal is inside of it. -/
theorem inside_of_lex (h : lex none ('\'' :: e ++ '\'' :: q) = some toks)
    (he : (literals toks).head? = some e) :
    Inside e ∧ ∃ toks', toks = .lit e :: toks' ∧ lex none q = some toks' := by
  rw [List.cons_append, lex, if_pos rfl] at h
  obtain ⟨e', q', toks', ht, -, rfl, hw, hrest⟩ := within_of_lex h
  obtain rfl : e' = e := Option.some.inj he
  obtain rfl : q = q' := (List.cons.inj (List.append_cancel_left ht)).2
  exact ⟨hw, toks', rfl, hrest⟩

end Literals

/-! ## Templates -/

/-- A piece of a query as a program writes it. -/
inductive Frag where
  | raw (t : List Char)
  | equal (column value : List Char)
deriving DecidableEq

/-- What is written for a piece. -/
def Frag.text : Frag → List Char
  | .raw t => t
  | .equal column value => column ++ '=' :: '\'' :: value ++ ['\'']

/-- What a piece is meant to read as. -/
def Frag.toks : Frag → List Tok
  | .raw t => t.map .ch
  | .equal column value => (column ++ ['=']).map .ch ++ [.lit value]

/-- The program's own text has no quotes. -/
def Frag.Plain : Frag → Prop
  | .raw t => '\'' ∉ t
  | .equal column _ => '\'' ∉ column

def Frag.value : Frag → Option (List Char)
  | .raw _ => none
  | .equal _ value => some value

def text (fs : List Frag) : List Char := fs.flatMap Frag.text

def toks (fs : List Frag) : List Tok := fs.flatMap Frag.toks

/-- The values that stand between quotes. -/
def values (fs : List Frag) : List (List Char) := fs.filterMap Frag.value

section Templates

variable {fs : List Frag} {t q : List Char}

@[simp] theorem text_append (fs gs : List Frag) : text (fs ++ gs) = text fs ++ text gs :=
  List.flatMap_append

@[simp] theorem toks_append (fs gs : List Frag) : toks (fs ++ gs) = toks fs ++ toks gs :=
  List.flatMap_append

@[simp] theorem values_append (fs gs : List Frag) : values (fs ++ gs) = values fs ++ values gs :=
  List.filterMap_append

theorem literals_append (a b : List Tok) : literals (a ++ b) = literals a ++ literals b :=
  List.filterMap_append

theorem literals_map_ch (t : List Char) : literals (t.map .ch) = [] := by
  induction t with
  | nil => rfl
  | cons c t ih => exact ih

theorem literals_toks (fs : List Frag) : literals (toks fs) = values fs := by
  induction fs with
  | nil => rfl
  | cons f fs ih =>
    have hcons : toks (f :: fs) = f.toks ++ toks fs := List.flatMap_cons
    rw [hcons, literals_append, ih]
    cases f with
    | raw t =>
      rw [Frag.toks, literals_map_ch]
      rfl
    | equal column value =>
      rw [Frag.toks, literals_append, literals_map_ch]
      rfl

theorem lex_plain (h : '\'' ∉ t) :
    lex none (t ++ q) = (lex none q).map (t.map .ch ++ ·) := by
  induction t with
  | nil =>
    show lex none q = (lex none q).map fun x => x
    rw [Option.map_id']
  | cons c t ih =>
    have hc : c ≠ '\'' := fun hc => h (hc ▸ List.mem_cons_self)
    rw [List.cons_append, lex, if_neg hc, ih fun ht => h (List.mem_cons_of_mem _ ht),
      Option.map_map]
    rfl

/-- No template begins with a quote, so no literal before it is continued. -/
theorem head_text (h : ∀ f ∈ fs, f.Plain) : (text fs).head? ≠ some '\'' := by
  induction fs with
  | nil => exact fun h => by cases h
  | cons f fs ih =>
    have hf := h f List.mem_cons_self
    have hcons : text (f :: fs) = f.text ++ text fs := List.flatMap_cons
    rw [hcons]
    cases f with
    | raw t =>
      cases t with
      | nil => exact ih fun g hg => h g (List.mem_cons_of_mem _ hg)
      | cons c t => exact fun hc => hf (Option.some.inj hc ▸ List.mem_cons_self)
    | equal column value =>
      cases column with
      | nil => exact fun hc => absurd (Option.some.inj hc) (by decide)
      | cons c column => exact fun hc => hf (Option.some.inj hc ▸ List.mem_cons_self)

theorem text_equal (column value : List Char) (fs : List Frag) :
    text (.equal column value :: fs) =
      (column ++ ['=']) ++ ('\'' :: value ++ '\'' :: text fs) := by
  simp [text, Frag.text]

theorem plain_column {column : List Char} (h : '\'' ∉ column) : '\'' ∉ column ++ ['='] := by
  intro hmem
  obtain hmem | hmem := List.mem_append.mp hmem
  · exact h hmem
  · exact absurd (List.mem_singleton.mp hmem) (by decide)

theorem lex_text (h : ∀ f ∈ fs, f.Plain) (hv : ∀ v ∈ values fs, Inside v) :
    lex none (text fs) = some (toks fs) := by
  induction fs with
  | nil => rfl
  | cons f fs ih =>
    have hf := h f List.mem_cons_self
    have hfs : ∀ g ∈ fs, g.Plain := fun g hg => h g (List.mem_cons_of_mem _ hg)
    cases f with
    | raw t =>
      have hcons : text (.raw t :: fs) = t ++ text fs := List.flatMap_cons
      rw [hcons, lex_plain hf, ih hfs hv]
      rfl
    | equal column value =>
      have hrest := ih hfs fun v hmem => hv v (List.mem_cons_of_mem _ hmem)
      have hin : Inside value := hv value List.mem_cons_self
      rw [text_equal, lex_plain (plain_column hf), lex_quoted hin (head_text hfs), hrest]
      show some (_ ++ Tok.lit value :: toks fs) = some ((_ ++ [Tok.lit value]) ++ toks fs)
      rw [List.append_assoc, List.singleton_append]

theorem inside_of_lex_text (h : ∀ f ∈ fs, f.Plain) {ts : List Tok}
    (hts : lex none (text fs) = some ts) (hlit : literals ts = values fs) :
    ∀ v ∈ values fs, Inside v := by
  induction fs generalizing ts with
  | nil => exact fun v hv => by cases hv
  | cons f fs ih =>
    have hf := h f List.mem_cons_self
    have hfs : ∀ g ∈ fs, g.Plain := fun g hg => h g (List.mem_cons_of_mem _ hg)
    cases f with
    | raw t =>
      have hcons : text (.raw t :: fs) = t ++ text fs := List.flatMap_cons
      rw [hcons, lex_plain hf] at hts
      obtain ⟨rest, hrest, rfl⟩ := Option.map_eq_some_iff.mp hts
      rw [literals_append, literals_map_ch, List.nil_append] at hlit
      exact ih hfs hrest hlit
    | equal column value =>
      rw [text_equal, lex_plain (plain_column hf)] at hts
      obtain ⟨rest, hrest, rfl⟩ := Option.map_eq_some_iff.mp hts
      have hvalues : values (.equal column value :: fs) = value :: values fs := rfl
      rw [literals_append, literals_map_ch, List.nil_append, hvalues] at hlit
      have hhead : (literals rest).head? = some value := by rw [hlit]; rfl
      obtain ⟨hin, rest', rfl, hrest'⟩ := inside_of_lex hrest hhead
      have htail : literals rest' = values fs := (List.cons.inj hlit).2
      rw [hvalues]
      exact List.forall_mem_cons.mpr ⟨hin, ih hfs hrest' htail⟩

/-! Templates with a separator between them. -/

theorem text_intercalate (sep : Frag) (ls : List (List Frag)) :
    text ([sep].intercalate ls) = sep.text.intercalate (ls.map text) := by
  induction ls with
  | nil => rfl
  | cons l ls ih =>
    cases ls with
    | nil => rw [List.intercalate_singleton, List.map_singleton, List.intercalate_singleton]
    | cons m ls =>
      have hsep : text [sep] = sep.text := List.flatMap_singleton ..
      rw [List.intercalate_cons_cons, text_append, text_append, ih, hsep]
      exact List.intercalate_cons_cons.symm

theorem values_intercalate (t : List Char) (ls : List (List Frag)) :
    values ([.raw t].intercalate ls) = (ls.map values).flatten := by
  induction ls with
  | nil => rfl
  | cons l ls ih =>
    cases ls with
    | nil =>
      rw [List.intercalate_singleton, List.map_singleton, List.flatten_singleton]
    | cons m ls =>
      have hsep : values [.raw t] = [] := rfl
      rw [List.intercalate_cons_cons, values_append, values_append, ih, hsep, List.append_nil]
      rfl

theorem mem_intercalate {f sep : Frag} {ls : List (List Frag)} (h : f ∈ [sep].intercalate ls) :
    f = sep ∨ ∃ l ∈ ls, f ∈ l := by
  induction ls with
  | nil => cases h
  | cons l ls ih =>
    cases ls with
    | nil =>
      rw [List.intercalate_singleton] at h
      exact Or.inr ⟨l, List.mem_cons_self, h⟩
    | cons m ls =>
      rw [List.intercalate_cons_cons, List.mem_append, List.mem_append] at h
      obtain (h | h) | h := h
      · exact Or.inr ⟨l, List.mem_cons_self, h⟩
      · exact Or.inl (List.mem_singleton.mp h)
      · refine (ih h).imp_right fun ⟨k, hk, hf⟩ => ⟨k, List.mem_cons_of_mem _ hk, hf⟩

end Templates

/-! ## Nesting -/

/-- The depth of parentheses after the tokens; none when one closes that none has opened. -/
def nest : Nat → List Tok → Option Nat
  | depth, [] => some depth
  | depth, t :: ts =>
    if t = .ch '(' then nest (depth + 1) ts
    else if t = .ch ')' then
      match depth with
      | 0 => none
      | depth + 1 => nest depth ts
    else nest depth ts

/-- The parentheses of a query balance. -/
def Balanced (ts : List Tok) : Prop := nest 0 ts = some 0

/-- A template that leaves the depth as it is, at every depth. -/
def Level (fs : List Frag) : Prop := ∀ depth, nest depth (toks fs) = some depth

section Nesting

variable {fs gs : List Frag}

theorem nest_other {depth : Nat} {t : Tok} {ts : List Tok} (hopen : t ≠ .ch '(')
    (hclose : t ≠ .ch ')') : nest depth (t :: ts) = nest depth ts := by
  rw [nest.eq_def]
  exact (if_neg hopen).trans (if_neg hclose)

theorem nest_append (depth : Nat) (a b : List Tok) :
    nest depth (a ++ b) = (nest depth a).bind (nest · b) := by
  induction a generalizing depth with
  | nil => rfl
  | cons t a ih =>
    rw [List.cons_append]
    by_cases hopen : t = .ch '('
    · subst hopen
      exact ih _
    · by_cases hclose : t = .ch ')'
      · subst hclose
        cases depth with
        | zero => rfl
        | succ depth => exact ih _
      · rw [nest_other hopen hclose, nest_other hopen hclose]
        exact ih _

theorem level_nil : Level [] := fun _ => rfl

theorem Level.append (hf : Level fs) (hg : Level gs) : Level (fs ++ gs) := by
  intro depth
  rw [toks_append, nest_append, hf depth]
  exact hg depth

theorem level_raw {t : List Char} (h : ∀ c ∈ t, c ≠ '(' ∧ c ≠ ')') : Level [.raw t] := by
  intro depth
  have htoks : toks [.raw t] = t.map .ch := List.flatMap_singleton ..
  rw [htoks]
  induction t with
  | nil => rfl
  | cons c t ih =>
    have hc := h c List.mem_cons_self
    rw [List.map_cons, nest_other (fun h => hc.1 (Tok.ch.inj h)) fun h => hc.2 (Tok.ch.inj h)]
    exact ih (fun d hd => h d (List.mem_cons_of_mem _ hd)) (List.flatMap_singleton ..)

theorem level_equal {column value : List Char} (h : ∀ c ∈ column, c ≠ '(' ∧ c ≠ ')') :
    Level [.equal column value] := by
  intro depth
  have hraw : ∀ c ∈ column ++ ['='], c ≠ '(' ∧ c ≠ ')' := by
    intro c hc
    obtain hc | hc := List.mem_append.mp hc
    · exact h c hc
    · rw [List.mem_singleton.mp hc]
      decide
  have htoks : toks [.equal column value] = toks [.raw (column ++ ['='])] ++ [.lit value] := by
    simp [toks, Frag.toks]
  rw [htoks, nest_append, level_raw hraw depth]
  rfl

theorem Level.paren (h : Level fs) : Level (.raw ['('] :: fs ++ [.raw [')']]) := by
  intro depth
  have htoks : toks (.raw ['('] :: fs ++ [.raw [')']]) = .ch '(' :: (toks fs ++ [.ch ')']) := by
    simp [toks, Frag.toks]
  have hopen : nest depth (.ch '(' :: (toks fs ++ [.ch ')'])) =
      nest (depth + 1) (toks fs ++ [.ch ')']) := rfl
  rw [htoks, hopen, nest_append, h (depth + 1)]
  rfl

theorem level_intercalate {sep : Frag} {ls : List (List Frag)} (hsep : Level [sep])
    (hls : ∀ l ∈ ls, Level l) : Level ([sep].intercalate ls) := by
  induction ls with
  | nil => exact level_nil
  | cons l ls ih =>
    have hl := hls l List.mem_cons_self
    cases ls with
    | nil => rwa [List.intercalate_singleton]
    | cons m ls =>
      rw [List.intercalate_cons_cons]
      exact (hl.append hsep).append (ih fun k hk => hls k (List.mem_cons_of_mem _ hk))

end Nesting

end Base.Sql
