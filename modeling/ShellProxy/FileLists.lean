import ShellProxy.SshConfig
import Mathlib.Data.List.Basic

/-! File lists in the output of `ssh -G`: what `split_values` gets back of a printed list. -/
namespace ShellProxy.FileLists
open HostPattern SshConfig

inductive Value where
  /-- as it is -/
  | bare (v : Text) (nonempty : v ≠ []) (solid : ∀ c ∈ v, isWhitespace c = false ∧ c ≠ '"')
  /-- between double quotes -/
  | quoted (v : Text) (nonempty : v ≠ []) (closed : '"' ∉ v)

def Value.text : Value → Text
  | .bare v _ _ => v
  | .quoted v _ _ => v

def Value.printed : Value → Text
  | .bare v _ _ => v
  | .quoted v _ _ => '"' :: (v ++ ['"'])

def printedLine (vals : List Value) : Text := [' '].intercalate (vals.map Value.printed)

/-- The state of the scanner behind a bare value. -/
def toggled : Option Char → Text → Option Char
  | q, [] => q
  | none, c :: t => toggled (if c = '\'' then some '\'' else none) t
  | some q, c :: t => toggled (if c = q then none else some q) t

theorem scan_bare (v t : Text) (hv : ∀ c ∈ v, isWhitespace c = false ∧ c ≠ '"') (q : Option Char)
    (cur : Text) :
    splitValuesFrom q cur (v ++ t) = splitValuesFrom (toggled q v) (cur ++ v) t := by
  induction v generalizing q cur with
  | nil => rw [List.nil_append, List.append_nil, toggled]
  | cons c v ih =>
    have hrest := ih fun d hd => hv d (List.mem_cons_of_mem c hd)
    obtain ⟨hw, hq⟩ := hv c List.mem_cons_self
    have hassoc : cur ++ c :: v = cur ++ [c] ++ v := by simp
    cases q with
    | some q => rw [List.cons_append, splitValuesFrom, hrest, toggled, hassoc]
    | none =>
      rw [List.cons_append, splitValuesFrom, toggled, hassoc]
      by_cases hc : c = '\''
      · rw [if_pos (.inr hc), if_pos hc, hrest, hc]
      · rw [if_neg (by simp [hc, hq]), if_neg (by simp [hw]), if_neg hc, hrest]

theorem toggled_eq (v : Text) :
    toggled none v = (if v.count '\'' % 2 = 0 then none else some '\'') ∧
      toggled (some '\'') v = (if v.count '\'' % 2 = 0 then some '\'' else none) := by
  induction v with
  | nil => exact ⟨rfl, rfl⟩
  | cons c v ih =>
    rw [toggled, toggled, List.count_cons]
    by_cases hc : c = '\''
    · rw [if_pos hc, if_pos hc, ih.1, ih.2, hc]
      constructor <;> split <;> rename_i h <;> simp only [beq_self_eq_true, if_true] <;>
        first | rw [if_neg (by omega)] | rw [if_pos (by omega)]
    · simp [hc, ih.1, ih.2]

theorem scan_quoted (v t : Text) (hv : '"' ∉ v) (cur : Text) :
    splitValuesFrom (some '"') cur (v ++ '"' :: t) =
      splitValuesFrom none (cur ++ (v ++ ['"'])) t := by
  induction v generalizing cur with
  | nil => rw [List.nil_append, splitValuesFrom, if_pos rfl, List.nil_append]
  | cons c v ih =>
    have hc : c ≠ '"' := fun he => hv (he ▸ List.mem_cons_self)
    have hrest := ih (fun hm => hv (List.mem_cons_of_mem c hm)) (cur ++ [c])
    rw [List.cons_append, splitValuesFrom, if_neg hc, hrest]
    simp

theorem scan_begun (q : Option Char) (cur t : Text) (hcur : cur ≠ []) :
    ∃ r more, splitValuesFrom q cur t = (cur ++ r) :: more := by
  induction t generalizing q cur with
  | nil =>
    refine ⟨[], [], ?_⟩
    cases q <;> rw [splitValuesFrom, if_neg hcur, List.append_nil]
  | cons c t ih =>
    have hgrow (q' : Option Char) :
        ∃ r more, splitValuesFrom q' (cur ++ [c]) t = (cur ++ r) :: more := by
      obtain ⟨r, more, h⟩ := ih q' (cur ++ [c]) (by simp)
      exact ⟨c :: r, more, by rw [h, List.append_assoc, List.singleton_append]⟩
    cases q with
    | some q =>
      rw [splitValuesFrom]
      exact hgrow _
    | none =>
      rw [splitValuesFrom]
      split
      · exact hgrow _
      · split
        · exact ⟨[], _, by rw [List.append_nil]⟩
        · exact hgrow _

/-! ### Unquoting -/

theorem trim_eq_self {t : Text} (hhead : ∀ c, t.head? = some c → isWhitespace c = false)
    (hlast : ∀ c, t.getLast? = some c → isWhitespace c = false) : trim t = t := by
  have hfront : t.dropWhile isWhitespace = t := by
    cases t with
    | nil => rfl
    | cons c t => rw [List.dropWhile_cons_of_neg (by simp [hhead c rfl])]
  rw [trim, hfront]
  obtain rfl | ⟨d, c, rfl⟩ := t.eq_nil_or_concat
  · rfl
  · rw [List.concat_eq_append] at hlast ⊢
    rw [List.rdropWhile_concat_neg _ _ _ (by simp [hlast c List.getLast?_concat])]

/-- The form that `unquote` takes the ends off of. -/
def Wrapped (q : Char) (t : Text) : Prop := 2 ≤ t.length ∧ t.head? = some q ∧ t.getLast? = some q

theorem unquote_trimmed {s t : Text} (h : trim s = t) :
    (Wrapped '"' t ∨ Wrapped '\'' t → unquote s = t.tail.dropLast) ∧
      (¬ Wrapped '"' t → ¬ Wrapped '\'' t → unquote s = t) := by
  unfold unquote
  simp only [h]
  constructor
  · rintro (⟨hlen, hends⟩ | ⟨hlen, hends⟩)
    · rw [if_pos ⟨hlen, .inl hends⟩]
    · rw [if_pos ⟨hlen, .inr hends⟩]
  · intro hq ha
    rw [if_neg]
    rintro ⟨hlen, hends | hends⟩
    · exact hq ⟨hlen, hends⟩
    · exact ha ⟨hlen, hends⟩

theorem unquote_quoted (v : Text) : unquote ('"' :: (v ++ ['"'])) = v := by
  have hlast : ('"' :: (v ++ ['"'])).getLast? = some '"' := by
    rw [← List.cons_append, List.getLast?_concat]
  have htrim : trim ('"' :: (v ++ ['"'])) = '"' :: (v ++ ['"']) := by
    refine trim_eq_self (fun c hc => ?_) (fun c hc => ?_)
    · obtain rfl := Option.some.inj hc
      decide
    · rw [hlast] at hc
      obtain rfl := Option.some.inj hc
      decide
  rw [(unquote_trimmed htrim).1 (.inl ⟨by simp, rfl, hlast⟩), List.tail_cons, List.dropLast_concat]

theorem length_unquoted (t : Text) : t.tail.dropLast.length = t.length - 2 := by
  rw [List.length_dropLast, List.length_tail, Nat.sub_sub]

theorem unquote_bare_iff {v : Text} (hv : ∀ c ∈ v, isWhitespace c = false ∧ c ≠ '"') :
    unquote v = v ↔ ¬ Wrapped '\'' v := by
  have htrim : trim v = v := trim_eq_self (fun c hc => (hv c (List.mem_of_head? hc)).1)
    (fun c hc => (hv c (List.mem_of_getLast? hc)).1)
  have hquote : ¬ Wrapped '"' v := fun h => (hv _ (List.mem_of_head? h.2.1)).2 rfl
  constructor
  · intro hu hw
    rw [(unquote_trimmed htrim).1 (.inr hw)] at hu
    have hlen := congrArg List.length hu
    rw [length_unquoted] at hlen
    have := hw.1
    omega
  · exact (unquote_trimmed htrim).2 hquote

theorem unquote_merged {v : Text} (hne : v ≠ []) (hv : ∀ c ∈ v, isWhitespace c = false ∧ c ≠ '"')
    {c : Char} (hc : isWhitespace c = false) (r : Text) : unquote (v ++ ' ' :: c :: r) ≠ v := by
  obtain ⟨x, w, rfl⟩ := List.exists_cons_of_ne_nil hne
  have htrim : trim (x :: w ++ ' ' :: c :: r) =
      x :: w ++ ' ' :: c :: r.rdropWhile isWhitespace := by
    have hback := rdropWhile_behind (x :: w ++ [' ']) r hc
    simp only [List.append_assoc, List.singleton_append] at hback
    rw [trim, List.cons_append, List.dropWhile_cons_of_neg (by simp [(hv x List.mem_cons_self).1]),
      ← List.cons_append, hback]
  generalize r.rdropWhile isWhitespace = d at htrim
  intro hu
  by_cases hw : Wrapped '"' (x :: w ++ ' ' :: c :: d) ∨ Wrapped '\'' (x :: w ++ ' ' :: c :: d)
  · rw [(unquote_trimmed htrim).1 hw, List.cons_append, List.tail_cons,
      List.dropLast_append_of_ne_nil (List.cons_ne_nil _ _), List.dropLast_cons_cons] at hu
    have hblank : ' ' ∈ x :: w := by
      rw [← hu]
      simp
    exact absurd (hv ' ' hblank).1 (by decide)
  · push Not at hw
    rw [(unquote_trimmed htrim).2 hw.1 hw.2] at hu
    have hlen := congrArg List.length hu
    simp only [List.length_append, List.length_cons] at hlen
    omega

/-! ### Lists -/

/-- A bare value that is not taken for a quoted one. -/
def Value.Kept : Value → Prop
  | .bare v _ _ => ¬ Wrapped '\'' v
  | .quoted _ _ _ => True

/-- A value behind which the scanner is outside of quotes. -/
def Value.Closed : Value → Prop
  | .bare v _ _ => v.count '\'' % 2 = 0
  | .quoted _ _ _ => True

/-- Lists that survive the apostrophes in their bare values. -/
def Separable (vals : List Value) : Prop :=
  (∀ x ∈ vals, x.Kept) ∧ ∀ x ∈ vals.dropLast, x.Closed

theorem printed_head (x : Value) : ∃ c r, x.printed = c :: r ∧ isWhitespace c = false := by
  cases x with
  | bare v hne hv =>
    obtain ⟨c, r, rfl⟩ := List.exists_cons_of_ne_nil hne
    exact ⟨c, r, rfl, (hv c List.mem_cons_self).1⟩
  | quoted v hne hv => exact ⟨'"', v ++ ['"'], rfl, by decide⟩

theorem printedLine_head (x : Value) (vals : List Value) :
    ∃ c r, printedLine (x :: vals) = c :: r ∧ isWhitespace c = false := by
  obtain ⟨c, r, hx, hc⟩ := printed_head x
  cases vals with
  | nil => exact ⟨c, r, hx ▸ List.intercalate_singleton, hc⟩
  | cons y vals =>
    rw [printedLine, List.map_cons, List.map_cons, List.intercalate_cons_cons, hx]
    exact ⟨c, _, rfl, hc⟩

theorem unquote_printed_iff (x : Value) : unquote x.printed = x.text ↔ x.Kept := by
  cases x with
  | bare v hne hv => exact unquote_bare_iff hv
  | quoted v hne hv => exact iff_of_true (unquote_quoted v) trivial

theorem scan_closed {x : Value} (h : x.Closed) (t : Text) :
    splitValuesFrom none [] (x.printed ++ ' ' :: t) = x.printed :: splitValuesFrom none [] t := by
  have hblank : ∀ cur : Text, cur ≠ [] →
      splitValuesFrom none cur (' ' :: t) = cur :: splitValuesFrom none [] t := by
    intro cur hcur
    rw [splitValuesFrom, if_neg (by decide), if_pos (by decide), if_neg hcur]
  cases x with
  | bare v hne hv =>
    have hc : v.count '\'' % 2 = 0 := h
    rw [Value.printed, scan_bare v _ hv, (toggled_eq v).1, if_pos hc, List.nil_append, hblank v hne]
  | quoted v hne hv =>
    rw [Value.printed, List.cons_append, splitValuesFrom, if_pos (.inl rfl), List.append_assoc,
      List.singleton_append, scan_quoted v _ hv, hblank _ (by simp)]
    rfl

theorem scan_open {x : Value} (h : ¬ x.Closed) {c : Char} (hc : isWhitespace c = false) (t : Text) :
    ∃ w more, splitValuesFrom none [] (x.printed ++ ' ' :: c :: t) = w :: more ∧
      unquote w ≠ x.text := by
  cases x with
  | quoted v hne hv => exact absurd trivial h
  | bare v hne hv =>
    have hodd : ¬ v.count '\'' % 2 = 0 := h
    rw [Value.printed, scan_bare v _ hv, (toggled_eq v).1, if_neg hodd, List.nil_append,
      splitValuesFrom, if_neg (by decide), splitValuesFrom]
    obtain ⟨r, more, hr⟩ := scan_begun (if c = '\'' then none else some '\'') (v ++ [' '] ++ [c]) t
      (by simp)
    refine ⟨_, more, hr, ?_⟩
    have hw : unquote (v ++ [' '] ++ [c] ++ r) ≠ v := by simpa using unquote_merged hne hv hc r
    exact hw

theorem scan_last (x : Value) : splitValuesFrom none [] x.printed = [x.printed] := by
  cases x with
  | bare v hne hv =>
    have hs := scan_bare v [] hv none []
    rw [List.append_nil, List.nil_append] at hs
    rw [Value.printed, hs]
    cases toggled none v <;> rw [splitValuesFrom, if_neg hne]
  | quoted v hne hv =>
    rw [Value.printed, splitValuesFrom, if_pos (.inl rfl), scan_quoted v [] hv, splitValuesFrom,
      if_neg (by simp)]
    rfl

/-- The list comes back exactly where no bare value stands between apostrophes and only the last one
has an odd number of them. -/
theorem splitValues_printed_iff (vals : List Value) :
    splitValues (printedLine vals) = vals.map Value.text ↔ Separable vals := by
  induction vals with
  | nil => exact iff_of_true rfl ⟨by simp, by simp⟩
  | cons x vals ih =>
    unfold splitValues at ih ⊢
    cases vals with
    | nil =>
      have hline : printedLine [x] = x.printed := List.intercalate_singleton
      rw [hline, scan_last]
      simpa [Separable] using unquote_printed_iff x
    | cons y vals =>
      have hline : printedLine (x :: y :: vals) = x.printed ++ ' ' :: printedLine (y :: vals) := by
        simp [printedLine, List.intercalate_cons_cons]
      have hsep : Separable (x :: y :: vals) ↔ x.Closed ∧ x.Kept ∧ Separable (y :: vals) := by
        simp only [Separable, List.forall_mem_cons, List.dropLast_cons_cons]
        exact ⟨fun h => ⟨h.2.1, h.1.1, h.1.2, h.2.2⟩, fun h => ⟨⟨h.2.1, h.2.2.1⟩, h.1, h.2.2.2⟩⟩
      rw [hline, hsep]
      by_cases hx : x.Closed
      · rw [scan_closed hx, List.map_cons, List.map_cons, List.cons.injEq, unquote_printed_iff, ih]
        exact (and_iff_right hx).symm
      · obtain ⟨c, r, hr, hc⟩ := printedLine_head y vals
        obtain ⟨w, more, hscan, hne⟩ := scan_open hx hc r
        rw [hr, hscan]
        refine iff_of_false (fun h => ?_) (fun h => hx h.1)
        rw [List.map_cons, List.map_cons] at h
        exact hne (List.cons.inj h).1

/-- Two paths with an apostrophe in each. -/
theorem splitValues_not_always :
    ¬ ∀ vals : List Value, splitValues (printedLine vals) = vals.map Value.text := fun h =>
  absurd (h [.bare "/o'a/k".toList (by decide) (by simp [isWhitespace]),
    .bare "/o'b/k".toList (by decide) (by simp [isWhitespace])]) (by decide)

end ShellProxy.FileLists
