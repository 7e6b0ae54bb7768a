import ShellProxy.HostPattern
import ShellProxy.Lib.Wildcard

/-! What the host patterns match: the loop that keeps the last star only decides the language of
its pattern. -/
namespace ShellProxy.PatternLanguage
open HostPattern Wildcard

def symbol (c : Char) : Sym Char := if c = '*' then .any else if c = '?' then .one else .lit c

def symbols (pattern : Text) : List (Sym Char) := pattern.map symbol

theorem symbol_any {c : Char} : symbol c = .any ↔ c = '*' := by
  unfold symbol
  by_cases h : c = '*'
  · simp [h]
  · by_cases hq : c = '?' <;> simp [h, hq]

theorem any_mem {q : Text} : Sym.any ∈ symbols q ↔ '*' ∈ q := by
  simp [symbols, symbol_any]

def Matches (s pattern : Text) : Prop := s ∈ language (symbols pattern)

theorem matches_nil {s : Text} : Matches s [] ↔ s = [] := mem_nil

theorem matches_star {s p : Text} : Matches s ('*' :: p) ↔ ∃ v, v <:+ s ∧ Matches v p := mem_any

theorem matches_cons {ch : Char} (h : ch ≠ '*') {s p : Text} :
    Matches s (ch :: p) ↔ ∃ c t, s = c :: t ∧ (ch = '?' ∨ ch = c) ∧ Matches t p := by
  have hs : symbols (ch :: p) = symbol ch :: symbols p := rfl
  unfold Matches
  rw [hs]
  by_cases hq : ch = '?'
  · have ho : symbol ch = .one := by simp [symbol, hq]
    rw [ho]
    cases s with
    | nil => simp [not_mem_one_nil]
    | cons c t => simp [mem_one, hq]
  · have hl : symbol ch = .lit ch := by simp [symbol, h, hq]
    rw [hl]
    cases s with
    | nil => simp [not_mem_lit_nil]
    | cons c t => simp [mem_lit, hq, eq_comm]

/-- What the loop has still to find out. -/
def Denotes (g : Glob) : Prop :=
  match g.star with
  | none => Matches g.s g.pattern
  | some (p, t) => ∃ v, v <:+ t ∧ Matches v p

/-- Since the last star, a star-free part of the pattern has matched at the place kept for it. -/
def Inv (g : Glob) : Prop :=
  ∀ p t, g.star = some (p, t) →
    ∃ q u, p = q ++ g.pattern ∧ t = u ++ g.s ∧ '*' ∉ q ∧ Matches u q

theorem symbols_append (q p : Text) : symbols (q ++ p) = symbols q ++ symbols p := List.map_append

theorem plain_symbols {q : Text} (h : '*' ∉ q) : Sym.any ∉ symbols q := fun ha => h (any_mem.mp ha)

theorem backtrack_spec {g : Glob} (hi : Inv g) (hn : ¬ Matches g.s g.pattern) :
    (∀ b, g.backtrack = .inl b → (b = true ↔ Denotes g)) ∧
      ∀ g', g.backtrack = .inr g' → Inv g' ∧ (Denotes g ↔ Denotes g') := by
  cases hs : g.star with
  | none =>
    have hb : g.backtrack = .inl false := by simp [Glob.backtrack, hs]
    have hd : ¬ Denotes g := by simpa [Denotes, hs] using hn
    rw [hb]
    exact ⟨fun b h => by simp [← Sum.inl.inj h, hd], fun g' h => by cases h⟩
  | some pt =>
    obtain ⟨p, t⟩ := pt
    obtain ⟨q, u, rfl, rfl, hq, hu⟩ := hi p t hs
    have hat : ¬ Matches (u ++ g.s) (q ++ g.pattern) := by
      unfold Matches
      rw [symbols_append, mem_behind_plain (plain_symbols hq) hu]
      exact hn
    cases ht : u ++ g.s with
    | nil =>
      have hb : g.backtrack = .inl false := by simp [Glob.backtrack, hs, ht]
      have hd : ¬ Denotes g := by
        simp only [Denotes, hs, ht, List.suffix_nil, exists_eq_left]
        rw [ht] at hat
        exact hat
      rw [hb]
      exact ⟨fun b h => by simp [← Sum.inl.inj h, hd], fun g' h => by cases h⟩
    | cons c t =>
      have hb : g.backtrack =
          .inr ⟨t, q ++ g.pattern, some (q ++ g.pattern, t), by simp⟩ := by
        simp [Glob.backtrack, hs, ht]
      rw [hb]
      refine ⟨fun b h => (by cases h), ?_⟩
      intro g' h
      obtain rfl := Sum.inr.inj h
      refine ⟨?_, ?_⟩
      · intro p' t' h'
        obtain ⟨rfl, rfl⟩ := Prod.mk.inj (Option.some.inj h')
        exact ⟨[], [], rfl, rfl, by simp, matches_nil.mpr rfl⟩
      · simp only [Denotes, hs, ht, List.suffix_cons_iff]
        rw [ht] at hat
        constructor
        · rintro ⟨v, rfl | hv, hm⟩
          · exact absurd hm hat
          · exact ⟨v, hv, hm⟩
        · rintro ⟨v, hv, hm⟩
          exact ⟨v, .inr hv, hm⟩

theorem inv_start (s p : Text) : Inv (Glob.start s p) := by
  intro q t h
  cases h

theorem advance_spec {g : Glob} (hi : Inv g) {ch c : Char} {p t : Text} (hp : g.pattern = ch :: p)
    (hs : g.s = c :: t) (hstar : ch ≠ '*') (hc : ch = '?' ∨ ch = c) :
    Inv (g.advance ch p t hp) ∧ (Denotes g ↔ Denotes (g.advance ch p t hp)) := by
  constructor
  · intro p' t' h
    obtain ⟨q, u, rfl, rfl, hq, hu⟩ := hi p' t' h
    refine ⟨q ++ [ch], u ++ [c], by simp [Glob.advance, hp], by simp [Glob.advance, hs], ?_, ?_⟩
    · simp [hq, Ne.symm hstar]
    · unfold Matches
      rw [symbols_append, mem_behind_plain (plain_symbols hq) hu]
      exact (matches_cons hstar).mpr ⟨c, [], rfl, hc, matches_nil.mpr rfl⟩
  · cases hst : g.star with
    | none => simp [Denotes, Glob.advance, hst, hp, hs, matches_cons hstar, hc]
    | some pt => simp [Denotes, Glob.advance, hst]

theorem star_spec {g : Glob} (hi : Inv g) {p : Text} (hp : g.pattern = '*' :: p)
    (hin : ∀ q t, some (p, g.s) = some (q, t) → p <:+ q) :
    Inv ⟨g.s, p, some (p, g.s), hin⟩ ∧ (Denotes g ↔ Denotes ⟨g.s, p, some (p, g.s), hin⟩) := by
  constructor
  · intro p' t' h
    obtain ⟨rfl, rfl⟩ := Prod.mk.inj (Option.some.inj h)
    exact ⟨[], [], rfl, rfl, by simp, matches_nil.mpr rfl⟩
  · cases hst : g.star with
    | none => simp only [Denotes, hst, hp, matches_star]
    | some pt =>
      obtain ⟨p', t'⟩ := pt
      obtain ⟨q, u, rfl, rfl, hq, hu⟩ := hi p' t' hst
      simp only [Denotes, hst, hp]
      unfold Matches
      rw [symbols_append]
      exact later_star (plain_symbols hq) hu

/-- One iteration decides, or leaves the question as it was. -/
theorem step_spec {g : Glob} (hi : Inv g) :
    (∀ b, g.step = .inl b → (b = true ↔ Denotes g)) ∧
      ∀ g', g.step = .inr g' → Inv g' ∧ (Denotes g ↔ Denotes g') := by
  unfold Glob.step
  split
  · rename_i hp
    by_cases hs : g.s = []
    · rw [if_pos hs]
      refine ⟨?_, fun g' h => by cases h⟩
      intro b h
      have hd : Denotes g := by
        cases hst : g.star with
        | none => simp [Denotes, hst, hp, hs, matches_nil]
        | some pt =>
          obtain ⟨p, t⟩ := pt
          obtain ⟨q, u, rfl, rfl, -, hu⟩ := hi p t hst
          simp only [Denotes, hst, hp, hs, List.append_nil]
          exact ⟨u, List.suffix_rfl, hu⟩
      simp [← Sum.inl.inj h, hd]
    · rw [if_neg hs]
      exact backtrack_spec hi (by rw [hp, matches_nil]; exact hs)
  · rename_i ch p hp
    by_cases hstar : ch = '*'
    · subst hstar
      rw [if_pos rfl]
      refine ⟨fun b h => (by cases h), ?_⟩
      intro g' h
      obtain rfl := Sum.inr.inj h
      exact star_spec hi hp _
    · rw [if_neg hstar]
      split
      · rename_i c t hs
        by_cases hc : ch = '?' ∨ ch = c
        · rw [if_pos hc]
          refine ⟨fun b h => (by cases h), ?_⟩
          intro g' h
          obtain rfl := Sum.inr.inj h
          exact advance_spec hi hp hs hstar hc
        · rw [if_neg hc]
          apply backtrack_spec hi
          rw [hp, hs, matches_cons hstar]
          rintro ⟨c', t', h, hm, -⟩
          obtain ⟨rfl, rfl⟩ := List.cons.inj h
          exact hc hm
      · rename_i hs
        apply backtrack_spec hi
        rw [hp, hs, matches_cons hstar]
        rintro ⟨c', t', h, -, -⟩
        cases h

theorem run_iff {g : Glob} (hi : Inv g) : g.run = true ↔ Denotes g := by
  induction g using Glob.run.induct with
  | case1 g b h =>
    rw [Glob.run_done h]
    exact (step_spec hi).1 b h
  | case2 g g' h ih =>
    obtain ⟨hi', hd⟩ := (step_spec hi).2 g' h
    rw [Glob.run_next h, hd]
    exact ih hi'

theorem matchPattern_iff (s p : Text) : matchPattern s p = true ↔ Matches s p :=
  run_iff (inv_start s p)

def Names (host pattern : Text) : Prop := Matches (toAsciiLowercase host) (toAsciiLowercase pattern)

theorem stripNegation_bang (p : Text) : stripNegation ('!' :: p) = (true, p) := rfl

theorem stripNegation_plain {p : Text} (h : p.head? ≠ some '!') : stripNegation p = (false, p) := by
  unfold stripNegation
  split
  · exact absurd rfl h
  · rfl

theorem matchPatterns_iff (host : Text) (found : Bool) (ps : List Text) :
    matchPatterns (toAsciiLowercase host) found ps = true ↔
      (found = true ∨ ∃ p ∈ ps, p.head? ≠ some '!' ∧ Names host p) ∧
        ∀ p, '!' :: p ∈ ps → ¬ Names host p := by
  induction ps generalizing found with
  | nil => simp [matchPatterns]
  | cons p ps ih =>
    have hm : ∀ q, matchPattern (toAsciiLowercase host) (toAsciiLowercase q) = true ↔
        Names host q := fun q => matchPattern_iff _ _
    by_cases hb : p.head? = some '!'
    · obtain ⟨rest, rfl⟩ : ∃ rest, p = '!' :: rest := by
        cases p with
        | nil => cases hb
        | cons c rest => exact ⟨rest, by rw [Option.some.inj hb]⟩
      simp only [matchPatterns, stripNegation_bang]
      by_cases hn : Names host rest
      · rw [if_pos ((hm rest).mpr hn)]
        simp [hn]
      · rw [if_neg (fun h => hn ((hm rest).mp h)), ih]
        simp [hn]
    · simp only [matchPatterns, stripNegation_plain hb]
      have hne : ∀ q, ('!' :: q = p) = False := by
        intro q
        apply eq_false
        rintro rfl
        exact hb rfl
      by_cases hn : Names host p
      · rw [if_pos ((hm p).mpr hn)]
        simp [ih, hb, hn, hne]
      · rw [if_neg (fun h => hn ((hm p).mp h)), ih]
        simp [hn, hne]

theorem matchPatternList_iff (host : Text) (ps : List Text) :
    matchPatternList host ps = true ↔
      (∃ p ∈ ps, p.head? ≠ some '!' ∧ Names host p) ∧ ∀ p, '!' :: p ∈ ps → ¬ Names host p := by
  unfold matchPatternList
  rw [matchPatterns_iff]
  simp

theorem step_wellFounded : WellFounded fun g' g : Glob => g.step = .inr g' := by
  have hb : WellFounded Below :=
    (Prod.lex Nat.lt_wfRel (Prod.lex Nat.lt_wfRel Nat.lt_wfRel)).wf
  exact Subrelation.wf step_below (InvImage.wf Glob.measure hb)

/-- The loop ends and decides the language of its pattern; a list of patterns matches where one
without `!` does and none with `!` does, whatever their order. -/
theorem host_patterns_exact :
    WellFounded (fun g' g : Glob => g.step = .inr g') ∧
    (∀ s p, matchPattern s p = true ↔ s ∈ language (symbols p)) ∧
    (∀ host ps, matchPatternList host ps = true ↔
      (∃ p ∈ ps, p.head? ≠ some '!' ∧
        toAsciiLowercase host ∈ language (symbols (toAsciiLowercase p))) ∧
      ∀ p, '!' :: p ∈ ps → toAsciiLowercase host ∉ language (symbols (toAsciiLowercase p))) ∧
    ∀ host ps qs, ps.Perm qs → matchPatternList host ps = matchPatternList host qs := by
  refine ⟨step_wellFounded, matchPattern_iff, matchPatternList_iff, ?_⟩
  intro host ps qs h
  rw [Bool.eq_iff_iff, matchPatternList_iff, matchPatternList_iff]
  simp only [h.mem_iff]

end ShellProxy.PatternLanguage
