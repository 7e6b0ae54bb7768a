import Mathlib.Data.List.Nodup
import Mathlib.Tactic.Common

/-! Words of the POSIX shell: how a line is cut into words, and what a word expands to. Double
quotes, command substitution, comments, tildes and the operators other than `>` are outside this
fragment: a line in which one of them stands unquoted has no reading here. -/
namespace ShellProxy.Shell

abbrev Text := List Char

/-- A word is made of these. `null` marks the place of a quotation, so that an empty one counts. -/
inductive Piece where
  | plain (c : Char)
  | quoted (c : Char)
  | null
  | param (name : Text)
  deriving DecidableEq, Repr

abbrev Word := List Piece

inductive Token where
  | word (w : Word)
  | redirect
  deriving DecidableEq, Repr

def isBlank (c : Char) : Bool := c == ' ' || c == '\t' || c == '\n'

def isSpecial (c : Char) : Bool :=
  c == '"' || c == Char.ofNat 96 || c == '(' || c == ')' || c == '|' || c == '&' || c == ';' ||
    c == '<' || c == '\x7b' || c == '\x7d'

/-- Characters that begin something else where they begin a word. -/
def isOpening (c : Char) : Bool := c == '#' || c == '~'

def isPatternChar (c : Char) : Bool := c == '*' || c == '?' || c == '['

/-- Characters the shell could expand, split at, match with or take for an operator. -/
def isMeta (c : Char) : Bool :=
  isBlank c || c == '>' || c == '\'' || c == '\\' || c == '$' || c == '!' || isSpecial c ||
    isOpening c || isPatternChar c

def isNameChar (first : Bool) (c : Char) : Bool :=
  c.isAlpha || c == '_' || (!first && c.isDigit)

/-- Where the lexer is: outside quotes, with the word it is in if any; in single quotes; behind a
backslash; in the name behind a `$`. -/
inductive Mode where
  | unquoted (cur : Option Word)
  | single (w : Word)
  | escape (cur : Option Word)
  | name (w : Word) (n : Text)
  deriving DecidableEq, Repr

def words (cur : Option Word) : List Token := cur.toList.map .word

def add (cur : Option Word) (p : Piece) : Option Word := some (cur.getD [] ++ [p])

/-- A character outside quotes: the tokens it ends, and where it leads. -/
def outside (cur : Option Word) (c : Char) : Option (List Token × Mode) :=
  if isBlank c then some (words cur, .unquoted none)
  else if c = '>' then if cur = none then some ([.redirect], .unquoted none) else none
  else if c = '\'' then some ([], .single (cur.getD [] ++ [.null]))
  else if c = '\\' then some ([], .escape cur)
  else if c = '$' then some ([], .name (cur.getD []) [])
  else if isSpecial c || (cur.isNone && isOpening c) then none
  else some ([], .unquoted (add cur (.plain c)))

def next : Mode → Char → Option (List Token × Mode)
  | .unquoted cur, c => outside cur c
  | .single w, c =>
    if c = '\'' then some ([], .unquoted (some w)) else some ([], .single (w ++ [.quoted c]))
  | .escape cur, c =>
    -- an escaped newline continues the line
    if c = '\n' then some ([], .unquoted cur) else some ([], .unquoted (add cur (.quoted c)))
  | .name w n, c =>
    if isNameChar n.isEmpty c then some ([], .name w (n ++ [c]))
    else if n = [] then none
    else outside (some (w ++ [.param n])) c

def final : Mode → Option (List Token)
  | .unquoted cur => some (words cur)
  | .name w n => if n = [] then none else some [.word (w ++ [.param n])]
  | .single _ | .escape _ => none

def lexFrom : Mode → Text → Option (List Token)
  | m, [] => final m
  | m, c :: t =>
    match next m c with
    | none => none
    | some (ts, m') => (lexFrom m' t).map (ts ++ ·)

/-- The tokens of a line. A line of a shell holds no NUL. -/
def lex (t : Text) : Option (List Token) :=
  if '\x00' ∈ t then none else lexFrom (.unquoted none) t

section Lex
variable {w : Word} {cur : Option Word} {s t : Text} {c : Char}

theorem lexFrom_cons {m m' : Mode} (h : next m c = some ([], m')) :
    lexFrom m (c :: t) = lexFrom m' t := by
  rw [lexFrom, h]
  exact congrFun Option.map_id (lexFrom m' t)

theorem lexFrom_quoted (h : '\'' ∉ s) :
    lexFrom (.single w) (s ++ t) = lexFrom (.single (w ++ s.map .quoted)) t := by
  induction s generalizing w with
  | nil => rw [List.nil_append, List.map_nil, List.append_nil]
  | cons c s ih =>
    have hc : c ≠ '\'' := fun he => h (he ▸ List.mem_cons_self)
    have hn : next (.single w) c = some ([], .single (w ++ [.quoted c])) := by
      rw [next, if_neg hc]
    rw [List.cons_append, lexFrom_cons hn, ih fun hm => h (List.mem_cons_of_mem c hm),
      List.map_cons, List.append_assoc]
    rfl

theorem lexFrom_open : lexFrom (.unquoted cur) ('\'' :: t) =
    lexFrom (.single (cur.getD [] ++ [.null])) t := lexFrom_cons rfl

theorem lexFrom_close : lexFrom (.single w) ('\'' :: t) = lexFrom (.unquoted (some w)) t :=
  lexFrom_cons rfl

theorem lexFrom_escape (h : c ≠ '\n') : lexFrom (.unquoted cur) ('\\' :: c :: t) =
    lexFrom (.unquoted (add cur (.quoted c))) t := by
  have hn : next (.escape cur) c = some ([], .unquoted (add cur (.quoted c))) := by
    rw [next, if_neg h]
  exact (lexFrom_cons rfl).trans (lexFrom_cons hn)

theorem lexFrom_inert (h : isMeta c = false) : lexFrom (.unquoted cur) (c :: t) =
    lexFrom (.unquoted (add cur (.plain c))) t := by
  simp only [isMeta, Bool.or_eq_false_iff, beq_eq_false_iff_ne] at h
  obtain ⟨⟨⟨⟨⟨⟨⟨⟨hb, hg⟩, hq⟩, he⟩, hd⟩, -⟩, hs⟩, ho⟩, -⟩ := h
  apply lexFrom_cons
  simp [next, outside, hb, hg, hq, he, hd, hs, ho]

theorem lexFrom_plain (h : ∀ c ∈ s, isMeta c = false) : lexFrom (.unquoted (some w)) (s ++ t) =
    lexFrom (.unquoted (some (w ++ s.map .plain))) t := by
  induction s generalizing w with
  | nil => rw [List.nil_append, List.map_nil, List.append_nil]
  | cons c s ih =>
    rw [List.cons_append, lexFrom_inert (h c List.mem_cons_self), add, Option.getD_some,
      ih fun d hd => h d (List.mem_cons_of_mem c hd), List.map_cons, List.append_assoc]
    rfl

theorem lexFrom_blank (h : isBlank c = true) : lexFrom (.unquoted (some w)) (c :: t) =
    (lexFrom (.unquoted none) t).map (.word w :: ·) := by
  rw [lexFrom, next, outside, if_pos h]
  rfl

end Lex

/-- What an expansion reads of the shell: the values of its parameters (empty where unset), the
field separators, and what a pattern stands for. A pattern is a text whose characters are marked
as active or not. -/
structure Env where
  param : Text → Text
  ifs : List Char
  fits : List (Char × Bool) → Text → Bool

structure Listing where
  names : List Text
  nodup : names.Nodup

/-- A character on its way through an expansion: from the line, from a value, or quoted. -/
inductive Cell where
  | lit (c : Char)
  | exp (c : Char)
  | quo (c : Char)
  | null
  deriving DecidableEq, Repr

/-- A character, and whether it may act in a pattern. -/
def Cell.sym : Cell → Option (Char × Bool)
  | .lit c | .exp c => some (c, true)
  | .quo c => some (c, false)
  | .null => none

def Cell.isDelimiter (ifs : List Char) : Cell → Bool
  | .exp c => ifs.contains c
  | _ => false

def Cell.isWhite : Cell → Bool
  | .exp c => isBlank c
  | _ => false

def Piece.cells (e : Env) : Piece → List Cell
  | .plain c => [.lit c]
  | .quoted c => [.quo c]
  | .null => [.null]
  | .param n => (e.param n).map .exp

/-- Field splitting. `white` says that white space has just ended a field: a separator that is
none then belongs to the same delimiter. -/
def split (ifs : List Char) : Option (List Cell) → Bool → List Cell → List (List Cell)
  | cur, _, [] => cur.toList
  | cur, white, x :: t =>
    if x.isDelimiter ifs then
      match cur with
      | some f => f :: split ifs none x.isWhite t
      | none =>
        if x.isWhite then split ifs none white t
        else if white then split ifs none false t
        else [] :: split ifs none false t
    else split ifs (some (cur.getD [] ++ [x])) false t

def Cell.acts : Cell → Bool
  | .lit c | .exp c => isPatternChar c
  | .quo _ | .null => false

def isPattern (f : List Cell) : Bool := f.any Cell.acts

def pattern (f : List Cell) : List (Char × Bool) := f.filterMap Cell.sym

def text (f : List Cell) : Text := (pattern f).map Prod.fst

/-- Pathname expansion: a pattern that stands for no name stands for itself. -/
def pathnames (e : Env) (l : Listing) (f : List Cell) : List Text :=
  if isPattern f && !(l.names.filter (e.fits (pattern f))).isEmpty then
    l.names.filter (e.fits (pattern f))
  else [text f]

def cells (e : Env) (w : Word) : List Cell := w.flatMap (Piece.cells e)

def fields (e : Env) (w : Word) : List (List Cell) := split e.ifs none false (cells e w)

def expand (e : Env) (l : Listing) (w : Word) : List Text :=
  (fields e w).flatMap (pathnames e l)

section Expand
variable {e : Env} {l : Listing} {ifs : List Char} {cur : Option (List Cell)} {white : Bool}

theorem split_keep {x : Cell} {u : List Cell} (h : x.isDelimiter ifs = false) :
    split ifs cur white (x :: u) = split ifs (some (cur.getD [] ++ [x])) false u := by
  cases cur <;> simp [split, h]

theorem split_end {x : Cell} {f u : List Cell} (h : x.isDelimiter ifs = true) :
    split ifs (some f) white (x :: u) = f :: split ifs none x.isWhite u := by
  simp [split, h]

theorem split_skip {x : Cell} {u : List Cell} (h : x.isDelimiter ifs = true) :
    ∃ b, split ifs none white (x :: u) = split ifs none b u ∨
      split ifs none white (x :: u) = [] :: split ifs none b u := by
  simp only [split, h, if_true]
  split_ifs with hw hp
  · exact ⟨white, .inl rfl⟩
  · exact ⟨false, .inl rfl⟩
  · exact ⟨false, .inr rfl⟩

theorem flatten_split {u : List Cell} : (split ifs cur white u).flatten =
    cur.getD [] ++ u.filter (!·.isDelimiter ifs) := by
  induction u generalizing cur white with
  | nil => cases cur <;> simp [split]
  | cons x t ih =>
    cases hx : x.isDelimiter ifs with
    | false =>
      rw [split_keep hx, ih, List.filter_cons_of_pos (by simp [hx]), Option.getD_some,
        List.append_assoc]
      rfl
    | true =>
      rw [List.filter_cons_of_neg (by simp [hx])]
      cases cur with
      | some f => rw [split_end hx, List.flatten_cons, ih]; rfl
      | none =>
        obtain ⟨b, h | h⟩ := @split_skip ifs white x t hx
        · rw [h]; exact ih
        · rw [h, List.flatten_cons, ih]; rfl

theorem split_some {f u : List Cell} (h : ∀ x ∈ u, x.isDelimiter ifs = false) :
    split ifs (some f) white u = [f ++ u] := by
  induction u generalizing f white with
  | nil => rw [split, List.append_nil]; rfl
  | cons x t ih =>
    rw [split_keep (h x List.mem_cons_self), ih fun y hy => h y (List.mem_cons_of_mem x hy),
      Option.getD_some, List.append_assoc]
    rfl

theorem split_none {u : List Cell} (h : ∀ x ∈ u, x.isDelimiter ifs = false) (hu : u ≠ []) :
    split ifs none white u = [u] := by
  cases u with
  | nil => exact absurd rfl hu
  | cons x t =>
    rw [split_keep (h x List.mem_cons_self),
      split_some fun y hy => h y (List.mem_cons_of_mem x hy)]
    rfl

theorem split_head {f u : List Cell} : ∃ g gs, split ifs (some f) white u = (f ++ g) :: gs := by
  induction u generalizing f white with
  | nil => exact ⟨[], [], by rw [split, List.append_nil]; rfl⟩
  | cons x t ih =>
    cases hx : x.isDelimiter ifs with
    | true => exact ⟨[], _, by rw [split_end hx, List.append_nil]⟩
    | false =>
      obtain ⟨g, gs, h⟩ := @ih false (f ++ [x])
      exact ⟨x :: g, gs, by rw [split_keep hx, Option.getD_some, h, List.append_assoc]; rfl⟩

theorem split_single {x : Cell} {f u : List Cell} (hw : x.isWhite = false)
    (h : split ifs none false (x :: u) = [f]) : f = [] ∨ ∃ g, f = x :: g := by
  cases hx : x.isDelimiter ifs with
  | true =>
    have hs : split ifs none false (x :: u) = [] :: split ifs none false u := by
      simp [split, hx, hw]
    rw [hs] at h
    exact .inl (List.cons.inj h).1.symm
  | false =>
    rw [split_keep hx] at h
    obtain ⟨g, gs, hg⟩ := @split_head ifs false [x] u
    exact .inr ⟨g, (List.cons.inj (h.symm.trans hg)).1⟩

theorem pathnames_literal {f : List Cell} (h : isPattern f = false) :
    pathnames e l f = [text f] := by
  rw [pathnames, h]
  rfl

theorem pathnames_empty {f : List Cell} : pathnames e ⟨[], List.nodup_nil⟩ f = [text f] := by
  rw [pathnames, List.filter_nil, List.isEmpty_nil, Bool.not_true, Bool.and_false]
  rfl

theorem pathnames_forall {f : List Cell} : (∀ l, pathnames e l f = [text f]) ↔
    (isPattern f = true → ∀ t, e.fits (pattern f) t = true → t = text f) := by
  constructor
  · intro h hp t ht
    have hl := h ⟨[t], List.nodup_singleton t⟩
    have hf : [t].filter (e.fits (pattern f)) = [t] := by rw [List.filter_singleton, ht]; rfl
    rw [pathnames, hf, hp] at hl
    exact (List.cons.inj hl).1
  · intro h l
    cases hp : isPattern f with
    | false => exact pathnames_literal hp
    | true =>
      rw [pathnames, hp, Bool.true_and]
      split_ifs with hn
      · have hm : ∀ t ∈ l.names.filter (e.fits (pattern f)), t = text f :=
          fun t ht => h hp t (List.mem_filter.mp ht).2
        have hd := l.nodup.filter (e.fits (pattern f))
        generalize l.names.filter (e.fits (pattern f)) = ns at hn hm hd
        cases ns with
        | nil => cases hn
        | cons t us =>
          obtain rfl := hm t List.mem_cons_self
          cases us with
          | nil => rfl
          | cons u us =>
            have hu := hm u (List.mem_cons_of_mem _ List.mem_cons_self)
            exact absurd (hu ▸ List.mem_cons_self) (List.nodup_cons.mp hd).1
      · rfl

theorem expand_empty {w : Word} :
    expand e ⟨[], List.nodup_nil⟩ w = (fields e w).map text := by
  rw [expand, ← List.flatMap_singleton' ((fields e w).map text), List.flatMap_map]
  exact List.flatMap_congr fun f _ => pathnames_empty

theorem filter_of_text {p : Cell → Bool} {u : List Cell}
    (hp : ∀ x, p x = false → x.sym.isSome = true) (h : text (u.filter p) = text u) :
    u.filter p = u := by
  have hlen (v : List Cell) : (text (v.filter p)).length ≤ (text v).length := by
    rw [text, text, List.length_map, List.length_map]
    exact (List.filter_sublist.filterMap Cell.sym).length_le
  induction u with
  | nil => rfl
  | cons x t ih =>
    cases hx : p x with
    | true =>
      rw [List.filter_cons_of_pos hx] at h ⊢
      refine congrArg (x :: ·) (ih ?_)
      cases x with
      | null => exact h
      | lit c | exp c | quo c => exact (List.cons.inj h).2
    | false =>
      rw [List.filter_cons_of_neg (by simp [hx])] at h
      have ht : (text (x :: t)).length = (text t).length + 1 := by
        cases x with
        | null => exact absurd (hp .null hx) (by decide)
        | lit c | exp c | quo c => rfl
      have hl := hlen t
      rw [h, ht] at hl
      omega

theorem fields_whole {w : Word} : fields e w = [cells e w] ↔
    (∀ x ∈ cells e w, x.isDelimiter e.ifs = false) ∧ cells e w ≠ [] := by
  constructor
  · intro h
    have hf := @flatten_split e.ifs none false (cells e w)
    rw [← fields, h, List.flatten_singleton, Option.getD_none, List.nil_append, eq_comm,
      List.filter_eq_self] at hf
    refine ⟨fun x hx => by simpa using hf x hx, fun hn => ?_⟩
    rw [fields, hn] at h
    cases h
  · rintro ⟨hd, hn⟩
    exact split_none hd hn

/-- When a word is its own text whatever names there are: it is one field, and as a pattern it fits
nothing else. -/
theorem expand_forall {w : Word} : (∀ l, expand e l w = [text (cells e w)]) ↔
    fields e w = [cells e w] ∧ (isPattern (cells e w) = true →
      ∀ t, e.fits (pattern (cells e w)) t = true → t = text (cells e w)) := by
  have hone (hf : fields e w = [cells e w]) (l : Listing) :
      expand e l w = pathnames e l (cells e w) := by
    rw [expand, hf, List.flatMap_singleton]
  constructor
  · intro h
    have hm := h ⟨[], List.nodup_nil⟩
    rw [expand_empty] at hm
    obtain ⟨f, hf, ht⟩ := List.map_eq_singleton_iff.mp hm
    have hflat := @flatten_split e.ifs none false (cells e w)
    rw [← fields, hf, List.flatten_singleton, Option.getD_none, List.nil_append] at hflat
    rw [hflat] at ht
    have hp (x : Cell) (hx : (!x.isDelimiter e.ifs) = false) : x.sym.isSome = true := by
      cases x with
      | null => cases hx
      | lit c | exp c | quo c => rfl
    rw [filter_of_text hp ht] at hflat
    have hw : fields e w = [cells e w] := hflat ▸ hf
    exact ⟨hw, pathnames_forall.mp fun l => (hone hw l).symm.trans (h l)⟩
  · rintro ⟨hw, hp⟩ l
    rw [hone hw l]
    exact pathnames_forall.mpr hp l

theorem expand_literal {w : Word} (h : isPattern (cells e w) = false) :
    expand e l w = (fields e w).map text := by
  rw [expand, ← List.flatMap_singleton' ((fields e w).map text), List.flatMap_map]
  refine List.flatMap_congr fun f hf => pathnames_literal ?_
  rw [isPattern, List.any_eq_false] at h ⊢
  intro x hx
  have hm : x ∈ (fields e w).flatten := List.mem_flatten_of_mem hf hx
  rw [fields, flatten_split] at hm
  exact h x (List.mem_of_mem_filter hm)

end Expand

/-- A piece with nothing in it for the shell to act on. -/
def Piece.isShielded : Piece → Bool
  | .plain c => !isMeta c
  | .quoted _ | .null => true
  | .param _ => false

/-- A piece that stands for its own text, whatever the shell holds. -/
def Piece.isQuiet : Piece → Bool
  | .plain c => !isPatternChar c
  | .quoted _ | .null => true
  | .param _ => false

def Piece.char : Piece → Option Char
  | .plain c | .quoted c => some c
  | .null | .param _ => none

theorem quiet_of_shielded {p : Piece} (h : p.isShielded = true) : p.isQuiet = true := by
  cases p with
  | plain c =>
    simp only [Piece.isShielded, Piece.isQuiet, isMeta, Bool.not_or, Bool.and_eq_true] at h ⊢
    exact h.2
  | quoted c => rfl
  | null => rfl
  | param n => cases h

def literal (w : Word) : Text := w.filterMap Piece.char

theorem literal_append {u v : Word} : literal (u ++ v) = literal u ++ literal v :=
  List.filterMap_append

section Quiet
variable {e : Env} {l : Listing} {w : Word}

theorem quiet_cells (h : ∀ p ∈ w, p.isQuiet = true) :
    (∀ x ∈ cells e w, x.isDelimiter e.ifs = false) ∧ isPattern (cells e w) = false ∧
      text (cells e w) = literal w ∧ (cells e w = [] ↔ w = []) := by
  induction w with
  | nil => exact ⟨fun x hx => absurd hx List.not_mem_nil, rfl, rfl, iff_of_true rfl rfl⟩
  | cons p w ih =>
    obtain ⟨hd, hp, ht, -⟩ := ih fun q hq => h q (List.mem_cons_of_mem p hq)
    have hn : ∀ {x : Cell} {u : List Cell}, x :: u = [] ↔ p :: w = [] :=
      iff_of_false (List.cons_ne_nil _ _) (List.cons_ne_nil _ _)
    have hq := h p List.mem_cons_self
    have hc : cells e (p :: w) = p.cells e ++ cells e w := rfl
    cases p with
    | param n => cases hq
    | null =>
      refine ⟨?_, hp, ht, hn⟩
      exact List.forall_mem_cons.mpr ⟨rfl, hd⟩
    | quoted c =>
      refine ⟨?_, hp, congrArg (c :: ·) ht, hn⟩
      exact List.forall_mem_cons.mpr ⟨rfl, hd⟩
    | plain c =>
      have hc : isPatternChar c = false := by simpa [Piece.isQuiet] using hq
      refine ⟨List.forall_mem_cons.mpr ⟨rfl, hd⟩, ?_, congrArg (c :: ·) ht, hn⟩
      rw [isPattern] at hp ⊢
      exact (Bool.or_eq_false_iff).mpr ⟨hc, hp⟩

theorem cells_param {n : Text} : cells e (.param n :: w) = (e.param n).map .exp ++ cells e w :=
  rfl

theorem cells_append {u v : Word} : cells e (u ++ v) = cells e u ++ cells e v :=
  List.flatMap_append

theorem pattern_append {f g : List Cell} : pattern (f ++ g) = pattern f ++ pattern g :=
  List.filterMap_append

theorem pattern_exp {v : Text} : pattern (v.map .exp) = v.map (·, true) := by
  induction v with
  | nil => rfl
  | cons c v ih => exact congrArg ((c, true) :: ·) ih

theorem text_append {f g : List Cell} : text (f ++ g) = text f ++ text g := by
  rw [text, pattern_append, List.map_append]
  rfl

theorem text_exp {v : Text} : text (v.map .exp) = v := by
  induction v with
  | nil => rfl
  | cons c v ih => exact congrArg (c :: ·) ih

theorem acts_exp {v : Text} : isPattern (v.map .exp) = v.any isPatternChar := by
  induction v with
  | nil => rfl
  | cons c v ih => exact congrArg (isPatternChar c || ·) ih

theorem expand_quiet (hw : w ≠ []) (h : ∀ p ∈ w, p.isQuiet = true) :
    expand e l w = [literal w] := by
  obtain ⟨hd, hp, ht, hn⟩ := @quiet_cells e w h
  rw [expand_literal hp, fields, split_none hd fun hu => hw (hn.mp hu), List.map_singleton, ht]

/-- When a value stands in a word as it is: none of it delimits, something is left, and where it
has a character that acts in a pattern, the pattern fits nothing else. -/
theorem expand_param {n : Text} (h : ∀ p ∈ w, p.isQuiet = true) :
    (∀ l, expand e l (.param n :: w) = [e.param n ++ literal w]) ↔
      (∀ c ∈ e.param n, c ∉ e.ifs) ∧ (e.param n = [] → w ≠ []) ∧
      ((∃ c ∈ e.param n, isPatternChar c = true) →
        ∀ t, e.fits (pattern (cells e (.param n :: w))) t = true → t = e.param n ++ literal w) := by
  obtain ⟨hd, hp, ht, hn⟩ := @quiet_cells e w h
  have htext : text (cells e (.param n :: w)) = e.param n ++ literal w := by
    rw [cells_param, text_append, text_exp, ht]
  have hacts : isPattern (cells e (.param n :: w)) = true ↔
      ∃ c ∈ e.param n, isPatternChar c = true := by
    rw [cells_param, isPattern, List.any_append, ← isPattern, ← isPattern, acts_exp, hp,
      Bool.or_false, List.any_eq_true]
  have hdel : (∀ x ∈ cells e (.param n :: w), x.isDelimiter e.ifs = false) ↔
      ∀ c ∈ e.param n, c ∉ e.ifs := by
    rw [cells_param, List.forall_mem_append, List.forall_mem_map, and_iff_left hd]
    simp [Cell.isDelimiter]
  have hnil : cells e (.param n :: w) ≠ [] ↔ (e.param n = [] → w ≠ []) := by
    rw [cells_param, Ne, List.append_eq_nil_iff, List.map_eq_nil_iff, hn, not_and]
  rw [← htext, ← hacts, expand_forall, fields_whole, hdel, hnil, and_assoc]

end Quiet

/-- A command: its words, and where its output goes. -/
structure Command where
  words : List Word
  outs : List Word
  deriving DecidableEq, Repr

def command : List Token → Option Command
  | [] => some ⟨[], []⟩
  | .word w :: ts => (command ts).map fun c => { c with words := w :: c.words }
  | .redirect :: .word w :: ts => (command ts).map fun c => { c with outs := w :: c.outs }
  | .redirect :: _ => none

end ShellProxy.Shell
