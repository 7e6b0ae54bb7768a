import Mathlib.Data.List.Infix
import Mathlib.Data.List.DropRight

/-! Text as the known_hosts code reads it, and the host patterns of its entries. -/
namespace ShellProxy.HostPattern

abbrev Text := List Char

/-- `char::is_whitespace`, the Unicode White_Space property. -/
def isWhitespace (c : Char) : Bool :=
  let n := c.toNat
  (9 ≤ n && n ≤ 13) || n == 0x20 || n == 0x85 || n == 0xA0 || n == 0x1680 ||
    (0x2000 ≤ n && n ≤ 0x200A) || n == 0x2028 || n == 0x2029 || n == 0x202F || n == 0x205F ||
    n == 0x3000

def trim (t : Text) : Text := (t.dropWhile isWhitespace).rdropWhile isWhitespace

def stripCr (t : Text) : Text := if t.getLast? = some '\r' then t.dropLast else t

/-- `str::lines`: a last empty piece is not a line, and one that no newline ends keeps its `\r`. -/
def lines (t : Text) : List Text :=
  let pieces := t.splitOn '\n'
  pieces.dropLast.map stripCr ++ pieces.getLast?.toList.filter (· ≠ [])

def splitWhitespace (t : Text) : List Text := (t.splitOnP isWhitespace).filter fun w => !w.isEmpty

def toAsciiLowercase (t : Text) : Text := t.map Char.toLower

/-- The loop variables of `match_pattern`. `star` is the pattern after the last `*` and the
subject where it was seen; what is left of the pattern is always part of that. -/
structure Glob where
  s : Text
  pattern : Text
  star : Option (Text × Text)
  inside : ∀ p t, star = some (p, t) → pattern <:+ p

def Glob.start (s pattern : Text) : Glob := ⟨s, pattern, none, by simp⟩

/-- The pattern loses its first character, and a `?` or an equal one takes one of the subject. -/
def Glob.advance (g : Glob) (ch : Char) (p s : Text) (h : g.pattern = ch :: p) : Glob where
  s := s
  pattern := p
  star := g.star
  inside q t hq := ((List.suffix_cons ch p).trans (h ▸ List.suffix_rfl)).trans (g.inside q t hq)

def Glob.backtrack (g : Glob) : Bool ⊕ Glob :=
  match g.star with
  | some (p, _ :: t) => .inr ⟨t, p, some (p, t), by simp⟩
  | _ => .inl false

def Glob.step (g : Glob) : Bool ⊕ Glob :=
  match h : g.pattern with
  | [] => if g.s = [] then .inl true else g.backtrack
  | ch :: p =>
    if ch = '*' then .inr ⟨g.s, p, some (p, g.s), by simp⟩
    else
      match g.s with
      | c :: t => if ch = '?' ∨ ch = c then .inr (g.advance ch p t h) else g.backtrack
      | [] => g.backtrack

/-- Patterns after a `*` get shorter, then the subject kept for it, then the pattern. -/
def Glob.measure (g : Glob) : Nat × Nat × Nat :=
  match g.star with
  | none => (g.pattern.length + 1, 0, g.pattern.length)
  | some (p, t) => (p.length, t.length, g.pattern.length)

abbrev Below : Nat × Nat × Nat → Nat × Nat × Nat → Prop := Prod.Lex (· < ·) (Prod.Lex (· < ·) (· < ·))

theorem backtrack_below {g g' : Glob} (h : g.backtrack = .inr g') : Below g'.measure g.measure := by
  unfold Glob.backtrack at h
  split at h
  · rename_i p c t hs
    obtain rfl := Sum.inr.inj h
    simp only [Glob.measure, hs, List.length_cons]
    exact .right _ (.left _ _ (Nat.lt_succ_self _))
  · cases h

theorem step_below {g g' : Glob} (h : g.step = .inr g') : Below g'.measure g.measure := by
  unfold Glob.step at h
  split at h
  · split at h
    · cases h
    · exact backtrack_below h
  · rename_i ch p hp
    split at h
    · obtain rfl := Sum.inr.inj h
      cases hs : g.star with
      | none =>
        simp only [Glob.measure, hs, hp, List.length_cons]
        exact .left _ _ (by omega)
      | some q =>
        have hi := (g.inside q.1 q.2 hs).length_le
        rw [hp, List.length_cons] at hi
        simp only [Glob.measure, hs]
        exact .left _ _ (by omega)
    · split at h
      · split at h
        · obtain rfl := Sum.inr.inj h
          cases hs : g.star with
          | none =>
            simp only [Glob.measure, Glob.advance, hs, hp, List.length_cons]
            exact .left _ _ (by omega)
          | some q =>
            simp only [Glob.measure, Glob.advance, hs, hp, List.length_cons]
            exact .right _ (.right _ (by omega))
        · exact backtrack_below h
      · exact backtrack_below h

def Glob.run (g : Glob) : Bool :=
  match _h : g.step with
  | .inl b => b
  | .inr g' => g'.run
termination_by g.measure
decreasing_by exact step_below _h

theorem Glob.run_done {g : Glob} {b : Bool} (h : g.step = .inl b) : g.run = b := by
  rw [Glob.run]
  split <;> simp_all

theorem Glob.run_next {g g' : Glob} (h : g.step = .inr g') : g.run = g'.run := by
  rw [Glob.run]
  split <;> simp_all

/-- `*` matches any sequence and `?` any single character. -/
def matchPattern (s pattern : Text) : Bool := (Glob.start s pattern).run

def stripNegation : Text → Bool × Text
  | '!' :: rest => (true, rest)
  | pattern => (false, pattern)

/-- The loop of `match_pattern_list` over a lowercased host. -/
def matchPatterns (host : Text) (gotPositive : Bool) : List Text → Bool
  | [] => gotPositive
  | pattern :: rest =>
    let (negated, pattern) := stripNegation pattern
    if matchPattern host (toAsciiLowercase pattern) then
      if negated then false else matchPatterns host true rest
    else matchPatterns host gotPositive rest

def matchPatternList (host : Text) (patterns : List Text) : Bool :=
  matchPatterns (toAsciiLowercase host) false patterns

/-! ### Trimming -/

theorem trim_concat (t : Text) {c : Char} (h : isWhitespace c = true) :
    trim (t ++ [c]) = trim t := by
  rw [trim, List.dropWhile_append]
  split
  · rename_i hd
    rw [trim, List.isEmpty_iff.mp hd, List.dropWhile_cons_of_pos h]
    rfl
  · rw [List.rdropWhile_concat_pos _ _ _ h, trim]

theorem trim_stripCr (t : Text) : trim (stripCr t) = trim t := by
  unfold stripCr
  split
  · rename_i h
    obtain ⟨d, rfl⟩ := List.getLast?_eq_some_iff.mp h
    rw [List.dropLast_concat, trim_concat d (by decide)]
  · rfl

theorem rdropWhile_behind (d r : Text) {y : Char} (hy : isWhitespace y = false) :
    (d ++ y :: r).rdropWhile isWhitespace = d ++ y :: r.rdropWhile isWhitespace := by
  induction r using List.reverseRecOn with
  | nil => rw [List.rdropWhile_concat_neg _ _ _ (by simp [hy])]; rfl
  | append_singleton r c ih =>
    rw [← List.cons_append, ← List.append_assoc]
    by_cases hc : isWhitespace c = true
    · rw [List.rdropWhile_concat_pos _ _ _ hc, List.rdropWhile_concat_pos _ _ _ hc, ih]
    · rw [List.rdropWhile_concat_neg _ _ _ hc, List.rdropWhile_concat_neg _ _ _ hc,
        List.append_assoc, List.cons_append]

theorem dropWhile_before (l r : Text) {x : Char} (hx : isWhitespace x = false) :
    (l ++ x :: r).dropWhile isWhitespace = l.dropWhile isWhitespace ++ x :: r := by
  rw [List.dropWhile_append, List.dropWhile_cons_of_neg (by simp [hx])]
  split
  · rename_i he
    rw [List.isEmpty_iff.mp he, List.nil_append]
  · rfl

theorem trim_between (l m r : Text) {x y : Char} (hx : isWhitespace x = false)
    (hy : isWhitespace y = false) :
    trim (l ++ x :: (m ++ y :: r)) =
      l.dropWhile isWhitespace ++ x :: (m ++ y :: r.rdropWhile isWhitespace) := by
  have hassoc : l.dropWhile isWhitespace ++ x :: (m ++ y :: r) =
      (l.dropWhile isWhitespace ++ x :: m) ++ y :: r := by simp
  rw [trim, dropWhile_before _ _ hx, hassoc, rdropWhile_behind _ _ hy]
  simp

end ShellProxy.HostPattern
