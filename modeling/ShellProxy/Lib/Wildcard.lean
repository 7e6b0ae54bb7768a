import Mathlib.Computability.Language
import Mathlib.Data.List.Infix

/-! Wildcard patterns over any alphabet, as languages, and why a matcher need not go back beyond
the last star. -/
namespace ShellProxy.Wildcard
variable {α : Type*}

inductive Sym (α : Type*) where
  | any
  | one
  | lit (a : α)
  deriving DecidableEq

def Sym.lang : Sym α → Language α
  | .any => ⊤
  | .one => {w : List α | w.length = 1}
  | .lit a => {[a]}

/-- The words of a pattern: each symbol stands for a word, and these follow one another. -/
def language (p : List (Sym α)) : Language α := (p.map Sym.lang).prod

theorem mem_nil {w : List α} : w ∈ language ([] : List (Sym α)) ↔ w = [] := Iff.rfl

theorem mem_cons {w : List α} {x : Sym α} {p : List (Sym α)} :
    w ∈ language (x :: p) ↔ ∃ u ∈ x.lang, ∃ v ∈ language p, u ++ v = w := by
  rw [language, List.map_cons, List.prod_cons, Language.mem_mul]
  rfl

theorem mem_append {w : List α} {q p : List (Sym α)} :
    w ∈ language (q ++ p) ↔ ∃ u ∈ language q, ∃ v ∈ language p, u ++ v = w := by
  rw [language, List.map_append, List.prod_append, Language.mem_mul]
  rfl

theorem mem_any {w : List α} {p : List (Sym α)} :
    w ∈ language (.any :: p) ↔ ∃ v, v <:+ w ∧ v ∈ language p := by
  rw [mem_cons]
  constructor
  · rintro ⟨u, -, v, hv, rfl⟩
    exact ⟨v, List.suffix_append u v, hv⟩
  · rintro ⟨v, ⟨u, rfl⟩, hv⟩
    exact ⟨u, trivial, v, hv, rfl⟩

theorem not_mem_one_nil {p : List (Sym α)} : [] ∉ language (.one :: p) := by
  rw [mem_cons]
  rintro ⟨u, hu, v, -, h⟩
  have hl : u.length = 1 := hu
  rw [(List.append_eq_nil_iff.mp h).1] at hl
  cases hl

theorem mem_one {c : α} {w : List α} {p : List (Sym α)} :
    c :: w ∈ language (.one :: p) ↔ w ∈ language p := by
  rw [mem_cons]
  constructor
  · rintro ⟨u, hu, v, hv, h⟩
    obtain ⟨a, rfl⟩ := List.length_eq_one_iff.mp hu
    obtain ⟨-, rfl⟩ := List.cons.inj h
    exact hv
  · exact fun h => ⟨[c], rfl, w, h, rfl⟩

theorem not_mem_lit_nil {a : α} {p : List (Sym α)} : [] ∉ language (.lit a :: p) := by
  rw [mem_cons]
  rintro ⟨u, hu, v, -, h⟩
  obtain rfl : u = [a] := hu
  cases h

theorem mem_lit {a c : α} {w : List α} {p : List (Sym α)} :
    c :: w ∈ language (.lit a :: p) ↔ c = a ∧ w ∈ language p := by
  rw [mem_cons]
  constructor
  · rintro ⟨u, hu, v, hv, h⟩
    obtain rfl : u = [a] := hu
    obtain ⟨rfl, rfl⟩ := List.cons.inj h
    exact ⟨rfl, hv⟩
  · rintro ⟨rfl, h⟩
    exact ⟨[c], rfl, w, h, rfl⟩

theorem length_of_plain {q : List (Sym α)} (hq : .any ∉ q) {u : List α} (hu : u ∈ language q) :
    u.length = q.length := by
  induction q generalizing u with
  | nil =>
    rw [mem_nil.mp hu]
    rfl
  | cons x q ih =>
    obtain ⟨a, ha, v, hv, rfl⟩ := mem_cons.mp hu
    have hrest := ih (fun h => hq (List.mem_cons_of_mem x h)) hv
    have hone : a.length = 1 := by
      cases x with
      | any => exact absurd List.mem_cons_self hq
      | one => exact ha
      | lit b =>
        obtain rfl : a = [b] := ha
        rfl
    rw [List.length_append, List.length_cons, hone, hrest, Nat.add_comm]

theorem mem_behind_plain {q p : List (Sym α)} (hq : .any ∉ q) {u s : List α}
    (hu : u ∈ language q) : u ++ s ∈ language (q ++ p) ↔ s ∈ language p := by
  rw [mem_append]
  constructor
  · rintro ⟨a, ha, b, hb, h⟩
    have hl : a.length = u.length := by rw [length_of_plain hq ha, length_of_plain hq hu]
    obtain ⟨-, rfl⟩ := List.append_inj h hl
    exact hb
  · exact fun h => ⟨u, hu, s, h, rfl⟩

/-- Where a star-free part has matched at the first place a star left it, the next star makes up
for every later place: the earlier star need not be tried again. -/
theorem later_star {q p : List (Sym α)} (hq : .any ∉ q) {u s : List α} (hu : u ∈ language q) :
    (∃ v, v <:+ u ++ s ∧ v ∈ language (q ++ .any :: p)) ↔ ∃ v, v <:+ s ∧ v ∈ language p := by
  constructor
  · rintro ⟨v, ⟨pre, hv⟩, hm⟩
    obtain ⟨a, ha, b, hb, rfl⟩ := mem_append.mp hm
    obtain ⟨w, hw, hp⟩ := mem_any.mp hb
    refine ⟨w, hw.trans ?_, hp⟩
    -- `a` is as long as `u`, so `b` starts no earlier than `s`
    have hl : a.length = u.length := by rw [length_of_plain hq ha, length_of_plain hq hu]
    have hb : b <:+ u ++ s := ⟨pre ++ a, by rw [List.append_assoc, hv]⟩
    apply List.suffix_of_suffix_length_le hb (List.suffix_append u s)
    have ht := congrArg List.length hv
    simp only [List.length_append] at ht
    omega
  · rintro ⟨v, hv, hp⟩
    exact ⟨u ++ s, List.suffix_rfl, mem_append.mpr ⟨u, hu, s, mem_any.mpr ⟨v, hv, hp⟩, rfl⟩⟩

end ShellProxy.Wildcard
