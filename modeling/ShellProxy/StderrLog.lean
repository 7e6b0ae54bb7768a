import ShellProxy.Lib.Utf8
import ShellProxy.HostPattern

/-! The daemon log of serve's stderr: chunks decoded one by one, lines put together across them. -/
namespace ShellProxy.StderrLog
open HostPattern Utf8

def trimEnd (t : Text) : Text := t.rdropWhile isWhitespace

/-- Take complete lines off the front of the buffer; `cur` is the line begun. -/
def drain (cur : Text) : Text → List Text × Text
  | [] => ([], cur)
  | c :: t =>
    if c = '\n' then (trimEnd (cur ++ [c]) :: (drain [] t).1, (drain [] t).2)
    else drain (cur ++ [c]) t

structure ServeLog where
  buf : Text := []

namespace ServeLog

/-- The log after a chunk, and the lines it logged. -/
def feed (s : ServeLog) (bytes : List UInt8) : ServeLog × List Text :=
  let (lines, rest) := drain [] (s.buf ++ lossy bytes)
  (⟨rest⟩, lines)

def flush (s : ServeLog) : List Text := if s.buf = [] then [] else [trimEnd s.buf]

def logged (s : ServeLog) : List (List UInt8) → List Text
  | [] => s.flush
  | c :: cs => (s.feed c).2 ++ logged (s.feed c).1 cs

end ServeLog

theorem drain_append (cur a b : Text) :
    drain cur (a ++ b) =
      ((drain cur a).1 ++ (drain (drain cur a).2 b).1, (drain (drain cur a).2 b).2) := by
  induction a generalizing cur with
  | nil => rfl
  | cons c a ih =>
    rw [List.cons_append, drain, drain]
    split
    · rw [ih]
      rfl
    · exact ih _

theorem drain_begun {cur : Text} (h : '\n' ∉ cur) : drain [] cur = ([], cur) := by
  have key : ∀ d : Text, drain d cur = ([], d ++ cur) := by
    induction cur with
    | nil => simp [drain]
    | cons c cur ih =>
      have hc : c ≠ '\n' := fun he => h (he ▸ List.mem_cons_self)
      have hrest : '\n' ∉ cur := fun hm => h (List.mem_cons_of_mem c hm)
      intro d
      rw [drain, if_neg hc, ih hrest, List.append_assoc, List.singleton_append]
  exact key []

theorem drain_rest {cur t : Text} (h : '\n' ∉ cur) : '\n' ∉ (drain cur t).2 := by
  induction t generalizing cur with
  | nil => exact h
  | cons c t ih =>
    rw [drain]
    split
    · exact ih List.not_mem_nil
    · rename_i hc
      refine ih fun hm => ?_
      obtain hm | hm := List.mem_append.mp hm
      · exact h hm
      · exact hc (List.mem_singleton.mp hm).symm

/-- The lines of a text, with the last one where the text does not end in a newline. -/
def linesOf (t : Text) : List Text := (drain [] t).1 ++ ServeLog.flush ⟨(drain [] t).2⟩

theorem linesOf_append (a b : Text) :
    linesOf (a ++ b) = (drain [] a).1 ++ linesOf ((drain [] a).2 ++ b) := by
  have hrest : '\n' ∉ (drain [] a).2 := drain_rest List.not_mem_nil
  rw [linesOf, linesOf, drain_append, drain_append _ (drain [] a).2, drain_begun hrest,
    List.append_assoc]
  rfl

/-- What is logged depends on the decoded chunks joined, and on nothing else. -/
theorem logged_eq (s : ServeLog) (chunks : List (List UInt8)) (h : '\n' ∉ s.buf) :
    s.logged chunks = linesOf (s.buf ++ chunks.flatMap lossy) := by
  induction chunks generalizing s with
  | nil =>
    rw [List.flatMap_nil, List.append_nil, linesOf, drain_begun h]
    rfl
  | cons c cs ih =>
    have hfeed : s.feed c = (⟨(drain [] (s.buf ++ lossy c)).2⟩, (drain [] (s.buf ++ lossy c)).1) :=
      rfl
    have hrec := ih ⟨(drain [] (s.buf ++ lossy c)).2⟩ (drain_rest List.not_mem_nil)
    rw [ServeLog.logged, hfeed, List.flatMap_cons, ← List.append_assoc, linesOf_append, hrec]

/-! ### Replacement characters -/

theorem count_trimEnd (t : Text) : (trimEnd t).count replacement = t.count replacement := by
  induction t using List.reverseRecOn with
  | nil => rfl
  | append_singleton t c ih =>
    by_cases hc : isWhitespace c = true
    · have hne : (c == replacement) = false := by
        rw [beq_eq_false_iff_ne]
        rintro rfl
        exact absurd hc (by decide)
      rw [trimEnd, List.rdropWhile_concat_pos _ _ _ hc, List.count_append, List.count_singleton,
        hne]
      exact ih
    · rw [trimEnd, List.rdropWhile_concat_neg _ _ _ hc]

theorem count_drain (cur t : Text) :
    (drain cur t).1.flatten.count replacement + (drain cur t).2.count replacement =
      cur.count replacement + t.count replacement := by
  induction t generalizing cur with
  | nil => simp [drain]
  | cons c t ih =>
    have hc : (c :: t).count replacement = [c].count replacement + t.count replacement := by
      rw [← List.singleton_append, List.count_append]
    rw [drain, hc]
    split
    · have hrec := ih []
      rw [List.count_nil] at hrec
      rw [List.flatten_cons, List.count_append, count_trimEnd, List.count_append]
      dsimp only
      omega
    · have hrec := ih (cur ++ [c])
      rw [List.count_append] at hrec
      omega

theorem count_linesOf (t : Text) :
    (linesOf t).flatten.count replacement = t.count replacement := by
  have hd := count_drain [] t
  rw [List.count_nil, Nat.zero_add] at hd
  rw [linesOf, List.flatten_append, List.count_append, ServeLog.flush, ← hd]
  split
  · rename_i he
    dsimp only at he
    rw [he]
    rfl
  · rw [List.flatten_singleton, count_trimEnd]

theorem lossy_stray {suf : List UInt8} (h : ∀ b ∈ suf, isTail b = true) (bs : List UInt8) :
    lossy (suf ++ bs) = List.replicate suf.length replacement ++ lossy bs := by
  simp only [lossy, feed_append, feed_stray h, List.append_assoc]

theorem count_stray {suf : List UInt8} (h : ∀ b ∈ suf, isTail b = true) (bs : List UInt8) :
    (lossy (suf ++ bs)).count replacement = suf.length + (lossy bs).count replacement := by
  rw [lossy_stray h, List.count_append, List.count_replicate_self]

def Valid (c : List UInt8) : Prop := ∃ s, c = encode s

/-- Chunks of a valid text behind what is left of a cut character: each cut inside a character adds
a replacement. -/
theorem count_chunks (chunks : List (List UInt8)) (suf : List UInt8) (t : Text)
    (hsuf : ∀ b ∈ suf, isTail b = true) (h : chunks.flatten = suf ++ encode t) :
    t.count replacement ≤ (chunks.flatMap lossy).count replacement ∧
      ((chunks.flatMap lossy).count replacement = t.count replacement →
        suf = [] ∧ ∀ c ∈ chunks, Valid c) := by
  induction chunks generalizing suf t with
  | nil =>
    obtain ⟨rfl, ht⟩ := List.append_eq_nil_iff.mp h.symm
    obtain rfl := encode_injective (t := []) ht
    simp
  | cons c cs ih =>
    rw [List.flatten_cons] at h
    rw [List.flatMap_cons, List.count_append]
    obtain ⟨r, rfl, hr⟩ | ⟨r, rfl, hr⟩ := List.append_eq_append_iff.mp h
    · -- the chunk ends inside what is left of the cut character
      have hc : ∀ b ∈ c, isTail b = true := fun b hb => hsuf b (List.mem_append_left r hb)
      obtain ⟨hle, heq⟩ := ih r t (fun b hb => hsuf b (List.mem_append_right c hb)) hr
      have hcount := count_stray hc []
      have hnil : (lossy []).count replacement = 0 := rfl
      rw [List.append_nil, hnil] at hcount
      refine ⟨by omega, fun hall => ?_⟩
      obtain rfl : c = [] := List.eq_nil_of_length_eq_zero (by omega)
      obtain ⟨rfl, hv⟩ := heq (by omega)
      exact ⟨rfl, List.forall_mem_cons.mpr ⟨⟨[], rfl⟩, hv⟩⟩
    · have hcount := count_stray hsuf r
      obtain ⟨s, u, rfl, rfl, hu⟩ | ⟨s, u, d, pre, rest, rfl, hd, hp, hrest, rfl, hu⟩ :=
        cut_cases t r cs.flatten hr
      · obtain ⟨hle, heq⟩ := ih [] u (by simp) hu
        rw [lossy_encode] at hcount
        rw [List.count_append]
        refine ⟨by omega, fun hall => ?_⟩
        obtain rfl : suf = [] := List.eq_nil_of_length_eq_zero (by omega)
        exact ⟨rfl, List.forall_mem_cons.mpr ⟨⟨s, rfl⟩, (heq (by omega)).2⟩⟩
      · -- both sides of the cut show a replacement
        obtain ⟨⟨q, hq⟩, htail⟩ := feed_inside hd hp hrest
        obtain ⟨hle, heq⟩ := ih rest u htail hu
        have hne : (cs.flatMap lossy).count replacement ≠ u.count replacement :=
          fun he => hrest (heq he).1
        have hpre : lossy pre = [replacement] := by
          rw [lossy, hq]
          rfl
        rw [lossy_encode_append, hpre, List.count_append, List.count_singleton_self] at hcount
        have hd1 : [d].count replacement ≤ 1 := List.count_le_length
        rw [← List.singleton_append, List.count_append, List.count_append]
        refine ⟨by omega, fun hall => ?_⟩
        omega

theorem encode_lossy {chunks : List (List UInt8)} (h : ∀ c ∈ chunks, Valid c) :
    encode (chunks.flatMap lossy) = chunks.flatten := by
  induction chunks with
  | nil => rfl
  | cons c cs ih =>
    obtain ⟨⟨s, rfl⟩, hcs⟩ := List.forall_mem_cons.mp h
    rw [List.flatMap_cons, encode_append, lossy_encode, ih hcs, List.flatten_cons]

/-- The same lines for the chunks and for the whole, exactly where no cut falls inside a
character. -/
theorem logged_chunks_iff (t : Text) (chunks : List (List UInt8))
    (h : chunks.flatten = encode t) :
    ServeLog.logged {} chunks = ServeLog.logged {} [encode t] ↔ ∀ c ∈ chunks, Valid c := by
  rw [logged_eq _ _ List.not_mem_nil, logged_eq _ _ List.not_mem_nil, List.flatMap_singleton,
    lossy_encode]
  constructor
  · intro hl
    have hcount := congrArg (fun ls => ls.flatten.count replacement) hl
    dsimp only at hcount
    rw [count_linesOf, count_linesOf] at hcount
    exact ((count_chunks chunks [] t (by simp) h).2 hcount).2
  · intro hv
    have ht : chunks.flatMap lossy = t := encode_injective ((encode_lossy hv).trans h)
    rw [ht]

/-- A text cut between its characters. -/
theorem logged_chunks_sample :
    ServeLog.logged {} [[0xC3, 0xA9], [10, 98]] = ServeLog.logged {} [encode ['é', '\n', 'b']] :=
  (logged_chunks_iff ['é', '\n', 'b'] [[0xC3, 0xA9], [10, 98]] (by decide)).mpr fun c hc => by
    obtain rfl | hc := List.mem_cons.mp hc
    · exact ⟨['é'], by decide⟩
    · exact ⟨['\n', 'b'], (List.mem_singleton.mp hc).trans (by decide)⟩

/-- One character in two chunks. -/
theorem logged_depends_on_chunks :
    ¬ ∀ (t : Text) (chunks : List (List UInt8)), chunks.flatten = encode t →
      ServeLog.logged {} chunks = ServeLog.logged {} [encode t] := fun h =>
  absurd (h ['é'] [[0xC3], [0xA9]] (by decide)) (by decide)

end ShellProxy.StderrLog
