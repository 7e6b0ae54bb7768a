import Mathlib.Data.List.Basic
import Mathlib.Data.Nat.Find

/-! Lossy decoding of UTF-8, one byte at a time. Each maximal part of a character that the next byte
does not continue becomes one replacement character, and so does every other stray byte. -/
namespace ShellProxy.Utf8

def replacement : Char := Char.ofNat 0xFFFD

def encode (t : List Char) : List UInt8 := t.flatMap String.utf8EncodeChar

/-- A character begun: what the next byte may be, how many more come behind that one, and the bits
so far. -/
structure Part where
  more : Nat
  lo : Nat
  hi : Nat
  acc : Nat
  tail : 0x80 ≤ lo

def start (n : Nat) : Option Part × List Char :=
  if n ≤ 0x7F then (none, [Char.ofNat n])
  else if 0xC2 ≤ n ∧ n ≤ 0xDF then (some ⟨0, 0x80, 0xBF, n - 0xC0, Nat.le_refl _⟩, [])
  else if 0xE0 ≤ n ∧ n ≤ 0xEF then
    (some ⟨1, if n = 0xE0 then 0xA0 else 0x80, if n = 0xED then 0x9F else 0xBF, n - 0xE0,
      by split <;> decide⟩, [])
  else if 0xF0 ≤ n ∧ n ≤ 0xF4 then
    (some ⟨2, if n = 0xF0 then 0x90 else 0x80, if n = 0xF4 then 0x8F else 0xBF, n - 0xF0,
      by split <;> decide⟩, [])
  else (none, [replacement])

def Part.accepts (p : Part) (n : Nat) : Bool := p.lo ≤ n && n ≤ p.hi

def Part.bits (p : Part) (n : Nat) : Nat := p.acc * 64 + (n - 0x80)

def Part.next (p : Part) (n : Nat) : Part := ⟨p.more - 1, 0x80, 0xBF, p.bits n, Nat.le_refl _⟩

def step (s : Option Part) (b : UInt8) : Option Part × List Char :=
  match s with
  | none => start b.toNat
  | some p =>
    if p.accepts b.toNat then
      if p.more = 0 then (none, [Char.ofNat (p.bits b.toNat)]) else (some (p.next b.toNat), [])
    else ((start b.toNat).1, replacement :: (start b.toNat).2)

def feed : Option Part → List UInt8 → Option Part × List Char
  | s, [] => (s, [])
  | s, b :: bs => ((feed (step s b).1 bs).1, (step s b).2 ++ (feed (step s b).1 bs).2)

/-- What the end of the input makes of a character begun. -/
def finish : Option Part → List Char
  | none => []
  | some _ => [replacement]

/-- `String::from_utf8_lossy`. -/
def lossy (bs : List UInt8) : List Char := (feed none bs).2 ++ finish (feed none bs).1

theorem encode_append (s t : List Char) : encode (s ++ t) = encode s ++ encode t :=
  List.flatMap_append

theorem encode_cons (c : Char) (t : List Char) :
    encode (c :: t) = String.utf8EncodeChar c ++ encode t := rfl

theorem feed_append (s : Option Part) (a b : List UInt8) :
    feed s (a ++ b) = ((feed (feed s a).1 b).1, (feed s a).2 ++ (feed (feed s a).1 b).2) := by
  induction a generalizing s with
  | nil => rfl
  | cons x a ih => simp only [List.cons_append, feed, ih, List.append_assoc]

theorem feed_singleton (s : Option Part) (b : UInt8) : feed s [b] = step s b := by
  simp [feed]

theorem step_ascii (s : Option Part) {b : UInt8} (h : b.toNat < 0x80) :
    step s b = (none, finish s ++ [Char.ofNat b.toNat]) := by
  have hs : start b.toNat = (none, [Char.ofNat b.toNat]) := by
    rw [start, if_pos (by omega)]
  cases s with
  | none => exact hs
  | some p =>
    have hno : p.accepts b.toNat = false := by
      have := p.tail
      simp only [Part.accepts, Bool.and_eq_false_iff, decide_eq_false_iff_not]
      omega
    rw [step, hno, if_neg Bool.false_ne_true, hs]
    rfl

theorem lossy_ascii (a c : List UInt8) {b : UInt8} (h : b.toNat < 0x80) :
    lossy (a ++ b :: c) = lossy a ++ Char.ofNat b.toNat :: lossy c := by
  simp only [lossy, feed_append, feed, step_ascii _ h, List.append_assoc, List.cons_append,
    List.nil_append]

def isTail (b : UInt8) : Bool := 0x80 ≤ b.toNat && b.toNat ≤ 0xBF

theorem step_stray {b : UInt8} (h : isTail b = true) : step none b = (none, [replacement]) := by
  simp only [isTail, Bool.and_eq_true, decide_eq_true_eq] at h
  rw [step, start, if_neg (by omega), if_neg (by omega), if_neg (by omega), if_neg (by omega)]

theorem feed_stray {bs : List UInt8} (h : ∀ b ∈ bs, isTail b = true) :
    feed none bs = (none, List.replicate bs.length replacement) := by
  induction bs with
  | nil => rfl
  | cons b bs ih =>
    rw [feed, step_stray (h b List.mem_cons_self), ih fun c hc => h c (List.mem_cons_of_mem b hc)]
    rfl

/-- These bytes complete the part to the character. -/
def Completes : Part → List UInt8 → Char → Prop
  | _, [], _ => False
  | p, b :: bs, c =>
    isTail b = true ∧ p.accepts b.toNat = true ∧
      (p.more = 0 ∧ bs = [] ∧ c = Char.ofNat (p.bits b.toNat) ∨
        p.more ≠ 0 ∧ Completes (p.next b.toNat) bs c)

theorem Completes.tails {p : Part} {bs : List UInt8} {c : Char} (h : Completes p bs c) :
    ∀ b ∈ bs, isTail b = true := by
  induction bs generalizing p with
  | nil => simp
  | cons b bs ih =>
    obtain ⟨ht, -, ⟨-, rfl, -⟩ | ⟨-, hrest⟩⟩ := h
    · simpa using ht
    · exact List.forall_mem_cons.mpr ⟨ht, ih hrest⟩

theorem Completes.feed {p : Part} {bs : List UInt8} {c : Char} (h : Completes p bs c) :
    Utf8.feed (some p) bs = (none, [c]) := by
  induction bs generalizing p with
  | nil => exact h.elim
  | cons b bs ih =>
    obtain ⟨-, hacc, ⟨hm, hnil, hc⟩ | ⟨hm, hrest⟩⟩ := h
    · rw [hnil, hc, feed_singleton, step, if_pos hacc, if_pos hm]
    · rw [Utf8.feed, step, if_pos hacc, if_neg hm, ih hrest]
      rfl

theorem Completes.feed_short {p : Part} {pre suf : List UInt8} {c : Char}
    (h : Completes p (pre ++ suf) c) (hs : suf ≠ []) :
    ∃ q, Utf8.feed (some p) pre = (some q, []) := by
  induction pre generalizing p with
  | nil => exact ⟨p, rfl⟩
  | cons b pre ih =>
    obtain ⟨-, hacc, ⟨-, hnil, -⟩ | ⟨hm, hrest⟩⟩ := h
    · exact absurd (List.append_eq_nil_iff.mp hnil).2 hs
    · obtain ⟨q, hq⟩ := ih hrest
      exact ⟨q, by rw [Utf8.feed, step, if_pos hacc, if_neg hm, hq]; rfl⟩

/-- The encoding of a character: one byte below 0x80, or a first byte with what completes it. -/
inductive Shape (c : Char) : List UInt8 → Prop where
  | ascii {b : UInt8} : b.toNat < 0x80 → c = Char.ofNat b.toNat → Shape c [b]
  | long {b : UInt8} {p : Part} {bs : List UInt8} :
      start b.toNat = (some p, []) → Completes p bs c → Shape c (b :: bs)

theorem valid_cases (c : Char) : c.toNat < 0xD800 ∨ 0xDFFF < c.toNat ∧ c.toNat < 0x110000 := c.valid

theorem start_two {a : Nat} (h2 : 2 ≤ a) (h : a < 32) :
    ∃ p, start (a + 0xC0) = (some p, []) ∧ p.more = 0 ∧ p.acc = a ∧
      ∀ n, 0x80 ≤ n → n ≤ 0xBF → p.accepts n = true := by
  refine ⟨⟨0, 0x80, 0xBF, a, Nat.le_refl _⟩, ?_, rfl, rfl, fun n hlo hhi => ?_⟩
  · rw [start, if_neg (by omega), if_pos (by omega), Nat.add_sub_cancel]
  · simp only [Part.accepts, Bool.and_eq_true, decide_eq_true_eq]
    omega

theorem start_three {a : Nat} (h : a < 16) :
    ∃ p, start (a + 0xE0) = (some p, []) ∧ p.more = 1 ∧ p.acc = a ∧
      ∀ n, 0x80 ≤ n → n ≤ 0xBF → (a = 0 → 0xA0 ≤ n) → (a = 13 → n ≤ 0x9F) →
        p.accepts n = true := by
  refine ⟨_, by rw [start, if_neg (by omega), if_neg (by omega), if_pos (by omega)], rfl,
    Nat.add_sub_cancel .., fun n hlo hhi h0 h13 => ?_⟩
  simp only [Part.accepts, Bool.and_eq_true, decide_eq_true_eq]
  constructor <;> split <;> omega

theorem start_four {a : Nat} (h : a ≤ 4) :
    ∃ p, start (a + 0xF0) = (some p, []) ∧ p.more = 2 ∧ p.acc = a ∧
      ∀ n, 0x80 ≤ n → n ≤ 0xBF → (a = 0 → 0x90 ≤ n) → (a = 4 → n ≤ 0x8F) →
        p.accepts n = true := by
  refine ⟨_, by rw [start, if_neg (by omega), if_neg (by omega), if_neg (by omega),
    if_pos (by omega)], rfl, Nat.add_sub_cancel .., fun n hlo hhi h0 h4 => ?_⟩
  simp only [Part.accepts, Bool.and_eq_true, decide_eq_true_eq]
  constructor <;> split <;> omega

@[simp] theorem next_more (p : Part) (n : Nat) : (p.next n).more = p.more - 1 := rfl
@[simp] theorem next_acc (p : Part) (n : Nat) : (p.next n).acc = p.bits n := rfl

theorem next_accepts (p : Part) (m : Nat) {n : Nat} (hlo : 0x80 ≤ n) (hhi : n ≤ 0xBF) :
    (p.next m).accepts n = true := by
  rw [Part.accepts, Part.next, decide_eq_true hlo, decide_eq_true hhi]
  rfl

/-- A byte that continues a character has six bits of it. -/
structure Tail (b : UInt8) (x : Nat) : Prop where
  val : b.toNat = x + 0x80
  small : x < 64

theorem tail_byte {x : Nat} (h : x < 64) : Tail (UInt8.ofNat (x + 0x80)) x :=
  ⟨by rw [UInt8.toNat_ofNat', Nat.mod_eq_of_lt (by omega)], h⟩

theorem Tail.isTail {b : UInt8} {x : Nat} (h : Tail b x) : isTail b = true := by
  have hv := h.val
  have hx := h.small
  simp only [Utf8.isTail, Bool.and_eq_true, decide_eq_true_eq]
  omega

theorem Tail.bits {b : UInt8} {x : Nat} (h : Tail b x) (p : Part) :
    p.bits b.toNat = p.acc * 64 + x := by
  have hv := h.val
  unfold Part.bits
  omega

theorem Tail.next_accepts {b : UInt8} {x : Nat} (h : Tail b x) (p : Part) (m : Nat) :
    (p.next m).accepts b.toNat = true := by
  have hv := h.val
  have hx := h.small
  exact Utf8.next_accepts p m (by omega) (by omega)

theorem completes_one {p : Part} {b : UInt8} {x : Nat} {c : Char} (h : Tail b x)
    (hacc : p.accepts b.toNat = true) (hm : p.more = 0) (hc : c.toNat = p.acc * 64 + x) :
    Completes p [b] c := by
  refine ⟨h.isTail, hacc, .inl ⟨hm, rfl, ?_⟩⟩
  rw [h.bits, ← hc, Char.ofNat_toNat]

theorem completes_two {p : Part} {b d : UInt8} {x y : Nat} {c : Char} (h : Tail b x)
    (hd : Tail d y) (hacc : p.accepts b.toNat = true) (hm : p.more = 1)
    (hc : c.toNat = (p.acc * 64 + x) * 64 + y) : Completes p [b, d] c := by
  refine ⟨h.isTail, hacc, .inr ⟨by omega, completes_one hd (hd.next_accepts p _) ?_ ?_⟩⟩
  · rw [next_more, hm]
  · rw [next_acc, h.bits, hc]

theorem completes_three {p : Part} {b d e : UInt8} {x y z : Nat} {c : Char} (h : Tail b x)
    (hd : Tail d y) (he : Tail e z) (hacc : p.accepts b.toNat = true) (hm : p.more = 2)
    (hc : c.toNat = ((p.acc * 64 + x) * 64 + y) * 64 + z) : Completes p [b, d, e] c := by
  refine ⟨h.isTail, hacc, .inr ⟨by omega, completes_two hd he (hd.next_accepts p _) ?_ ?_⟩⟩
  · rw [next_more, hm]
  · rw [next_acc, h.bits, hc]

theorem lead_byte {x k : Nat} (h : x + k < 256) : (UInt8.ofNat (x + k)).toNat = x + k := by
  rw [UInt8.toNat_ofNat', Nat.mod_eq_of_lt h]

theorem Shape.of_lead {b : UInt8} {n : Nat} {p : Part} {bs : List UInt8} {c : Char}
    (hb : b.toNat = n) (hp : start n = (some p, [])) (h : Completes p bs c) : Shape c (b :: bs) :=
  .long (hb ▸ hp) h

theorem shape (c : Char) : Shape c (String.utf8EncodeChar c) := by
  have hv := valid_cases c
  have hn : c.val.toNat = c.toNat := rfl
  have t0 := tail_byte (Nat.mod_lt c.toNat (by omega : 0 < 64))
  have t1 := tail_byte (Nat.mod_lt (c.toNat / 64) (by omega : 0 < 64))
  have t2 := tail_byte (Nat.mod_lt (c.toNat / 4096) (by omega : 0 < 64))
  unfold String.utf8EncodeChar
  simp only [hn]
  split
  · have hb : (UInt8.ofNat c.toNat).toNat = c.toNat := by
      rw [UInt8.toNat_ofNat', Nat.mod_eq_of_lt (by omega)]
    exact .ascii (by omega) (by rw [hb, Char.ofNat_toNat])
  · split
    · obtain ⟨p, hp, hm, ha, hacc⟩ := start_two (a := c.toNat / 64 % 32) (by omega) (by omega)
      refine .of_lead (lead_byte (by omega)) hp (completes_one t0 (hacc _ ?_ ?_) hm ?_)
      · rw [t0.val]
        omega
      · rw [t0.val]
        omega
      · rw [ha]
        omega
    · split
      · obtain ⟨p, hp, hm, ha, hacc⟩ := start_three (a := c.toNat / 4096 % 16) (by omega)
        refine .of_lead (lead_byte (by omega)) hp (completes_two t1 t0 (hacc _ ?_ ?_ ?_ ?_) hm ?_)
          <;> first | rw [t1.val] | rw [ha]
        all_goals omega
      · obtain ⟨p, hp, hm, ha, hacc⟩ := start_four (a := c.toNat / 262144 % 8) (by omega)
        refine .of_lead (lead_byte (by omega)) hp
          (completes_three t2 t1 t0 (hacc _ ?_ ?_ ?_ ?_) hm ?_) <;> first | rw [t2.val] | rw [ha]
        all_goals omega

theorem feed_char (c : Char) : feed none (String.utf8EncodeChar c) = (none, [c]) := by
  generalize hb : String.utf8EncodeChar c = bs
  have hs : Shape c bs := hb ▸ shape c
  cases hs with
  | ascii hlt hc => rw [feed_singleton, step_ascii _ hlt, hc]; rfl
  | long hp h => rw [feed, step, hp, h.feed]; rfl

theorem encodeChar_ne_nil (c : Char) : String.utf8EncodeChar c ≠ [] := by
  intro h
  have hs := shape c
  rw [h] at hs
  cases hs

theorem feed_inside {c : Char} {pre suf : List UInt8} (h : String.utf8EncodeChar c = pre ++ suf)
    (hp : pre ≠ []) (hs : suf ≠ []) :
    (∃ q, feed none pre = (some q, [])) ∧ ∀ b ∈ suf, isTail b = true := by
  obtain ⟨x, pre, rfl⟩ := List.exists_cons_of_ne_nil hp
  have hshape := h ▸ shape c
  generalize hl : x :: pre ++ suf = bs at hshape
  cases hshape with
  | ascii =>
    have hlen := congrArg List.length hl
    have hpos := List.length_pos_of_ne_nil hs
    simp only [List.length_append, List.length_cons, List.length_nil] at hlen
    omega
  | long hstart hc =>
    obtain ⟨rfl, rfl⟩ := List.cons.inj hl
    obtain ⟨q, hq⟩ := hc.feed_short hs
    refine ⟨⟨q, ?_⟩, fun b hb => hc.tails b (List.mem_append_right _ hb)⟩
    rw [feed, step, hstart, hq]
    rfl

theorem feed_encode (t : List Char) : feed none (encode t) = (none, t) := by
  induction t with
  | nil => rfl
  | cons c t ih => rw [encode_cons, feed_append, feed_char, ih]; rfl

theorem lossy_encode (t : List Char) : lossy (encode t) = t := by
  rw [lossy, feed_encode, finish, List.append_nil]

theorem lossy_encode_append (t : List Char) (b : List UInt8) :
    lossy (encode t ++ b) = t ++ lossy b := by
  simp only [lossy, feed_append, feed_encode, List.append_assoc]

theorem encode_injective {s t : List Char} (h : encode s = encode t) : s = t := by
  rw [← lossy_encode s, h, lossy_encode]

/-- Where a cut of an encoded text falls. -/
inductive Cut (t : List Char) (a b : List UInt8) : Prop where
  | between (s u : List Char) : t = s ++ u → a = encode s → b = encode u → Cut t a b
  | inside (s u : List Char) (c : Char) (pre suf : List UInt8) :
      t = s ++ c :: u → String.utf8EncodeChar c = pre ++ suf → pre ≠ [] → suf ≠ [] →
      a = encode s ++ pre → b = suf ++ encode u → Cut t a b

theorem cut_cases (t : List Char) (a b : List UInt8) (h : encode t = a ++ b) : Cut t a b := by
  induction t generalizing a with
  | nil =>
    obtain ⟨rfl, rfl⟩ := List.append_eq_nil_iff.mp h.symm
    exact .between [] [] rfl rfl rfl
  | cons c t ih =>
    rw [encode_cons] at h
    obtain ⟨r, rfl, hr⟩ | ⟨r, hc, rfl⟩ := List.append_eq_append_iff.mp h
    · obtain ⟨s, u, rfl, rfl, rfl⟩ | ⟨s, u, d, pre, suf, rfl, hd, hp, hs, rfl, rfl⟩ := ih r hr
      · exact .between (c :: s) u rfl rfl rfl
      · exact .inside (c :: s) u d pre suf rfl hd hp hs (by rw [encode_cons, List.append_assoc]) rfl
    · by_cases ha : a = []
      · subst ha
        exact .between [] (c :: t) rfl rfl (by rw [encode_cons, hc, List.nil_append])
      · by_cases hr : r = []
        · subst hr
          rw [List.append_nil] at hc
          exact .between [c] t rfl (by rw [encode_cons, hc]; exact (List.append_nil a).symm) rfl
        · exact .inside [] t c a r rfl hc ha hr rfl rfl

/-- The longest front of whole characters within a number of bytes. -/
structure LongestFit (t s : List Char) (max : Nat) : Prop where
  front : s <+: t
  fits : (encode s).length ≤ max
  longest : ∀ r, r <+: t → (encode r).length ≤ max → r <+: s

theorem length_encode_mono {s t : List Char} (h : s <+: t) :
    (encode s).length ≤ (encode t).length := by
  obtain ⟨u, rfl⟩ := h
  rw [encode_append, List.length_append]
  exact Nat.le_add_right _ _

theorem LongestFit.of_next {s u : List Char} {c : Char} {max : Nat}
    (hfit : (encode s).length ≤ max) (hnext : max < (encode (s ++ [c])).length) :
    LongestFit (s ++ c :: u) s max where
  front := List.prefix_append _ _
  fits := hfit
  longest r hr hle := by
    obtain h | h := List.prefix_or_prefix_of_prefix hr (List.prefix_append s (c :: u))
    · exact h
    · obtain ⟨v, rfl⟩ := h
      cases v with
      | nil => simp
      | cons d v =>
        rw [List.prefix_append_right_inj] at hr
        obtain rfl := (List.cons_prefix_cons.mp hr).1
        have hlen := length_encode_mono
          (List.prefix_append (s ++ [d]) v : s ++ [d] <+: s ++ [d] ++ v)
        rw [List.append_assoc, List.singleton_append] at hlen
        omega

theorem prefix_of_length_le {t r s : List Char} (hr : r <+: t) (hs : s <+: t)
    (h : (encode r).length ≤ (encode s).length) : r <+: s := by
  obtain hrs | ⟨u, rfl⟩ := List.prefix_or_prefix_of_prefix hr hs
  · exact hrs
  · cases u with
    | nil => simp
    | cons c u =>
      have hpos := List.length_pos_of_ne_nil (encodeChar_ne_nil c)
      rw [encode_append, encode_cons, List.length_append, List.length_append] at h
      omega

theorem LongestFit.whole {t s : List Char} {max : Nat} (h : LongestFit t s max)
    (hfit : (encode t).length ≤ max) : s = t :=
  h.front.eq_of_length_le (h.longest t List.prefix_rfl hfit).length_le

/-- No character has more than four bytes, so at most three of the room stay free. -/
theorem LongestFit.room {t s : List Char} {max : Nat} (h : LongestFit t s max)
    (hlong : max < (encode t).length) : max ≤ (encode s).length + 3 := by
  obtain ⟨u, hu⟩ := h.front
  cases u with
  | nil =>
    have hfit := h.fits
    rw [List.append_nil] at hu
    rw [hu] at hfit
    omega
  | cons c u =>
    have hnext : s ++ [c] <+: t := ⟨u, by simpa using hu⟩
    have hmax : max < (encode (s ++ [c])).length := by
      by_contra hle
      have hlen := (h.longest _ hnext (by omega)).length_le
      rw [List.length_append, List.length_singleton] at hlen
      omega
    have hfour := c.utf8Size_le_four
    rw [encode_append, List.length_append, encode_cons, List.length_append,
      String.length_utf8EncodeChar] at hmax
    change max < (encode s).length + (c.utf8Size + 0) at hmax
    omega

theorem lossy_take {t : List Char} {max : Nat} (h : max < (encode t).length) :
    ∃ s, LongestFit t s max ∧ lossy ((encode t).take max) =
      s ++ if (encode s).length = max then [] else [replacement] := by
  have hlen : ((encode t).take max).length = max := by
    rw [List.length_take]
    omega
  have hdrop : (encode t).drop max ≠ [] := by
    rw [Ne, List.drop_eq_nil_iff]
    omega
  have hcut := cut_cases t ((encode t).take max) ((encode t).drop max)
    (List.take_append_drop _ _).symm
  obtain ⟨s, u, rfl, hs, hu⟩ | ⟨s, u, c, pre, suf, rfl, hc, hp, hsuf, hs, hu⟩ := hcut
  · rw [hs] at hlen
    refine ⟨s, ?_, by rw [hs, lossy_encode, if_pos hlen, List.append_nil]⟩
    cases u with
    | nil => exact absurd hu hdrop
    | cons c u =>
      have hpos := List.length_pos_of_ne_nil (encodeChar_ne_nil c)
      refine .of_next (Nat.le_of_eq hlen) ?_
      rw [encode_append, encode_cons, List.length_append, List.length_append]
      omega
  · obtain ⟨⟨q, hq⟩, -⟩ := feed_inside hc hp hsuf
    have hppos := List.length_pos_of_ne_nil hp
    have hspos := List.length_pos_of_ne_nil hsuf
    rw [hs, List.length_append] at hlen
    refine ⟨s, .of_next (by omega) ?_, ?_⟩
    · rw [encode_append, encode_cons, hc, List.length_append, List.length_append,
        List.length_append]
      omega
    · rw [hs, lossy_encode_append, lossy, hq, if_neg (by omega)]
      rfl

/-- What is begun stands for a character from 0x80 on. -/
def Part.High (p : Part) : Prop := 2 ≤ p.acc ∨ p.more ≠ 0 ∧ 2 ≤ p.acc * 64 + (p.lo - 0x80)

theorem start_high {n : Nat} {p : Part} (h : (start n).1 = some p) : p.High := by
  unfold start at h
  split at h
  · cases h
  · split at h
    · obtain rfl := Option.some.inj h
      exact .inl (by simp only; omega)
    · split at h
      · obtain rfl := Option.some.inj h
        refine .inr ⟨Nat.one_ne_zero, ?_⟩
        dsimp only
        split <;> omega
      · split at h
        · obtain rfl := Option.some.inj h
          refine .inr ⟨Nat.succ_ne_zero 1, ?_⟩
          dsimp only
          split <;> omega
        · cases h

theorem Part.High.bits {p : Part} (h : p.High) {n : Nat} (ha : p.accepts n = true) :
    2 ≤ p.bits n ∧ (p.more = 0 → 0x80 ≤ p.bits n) := by
  simp only [Part.accepts, Bool.and_eq_true, decide_eq_true_eq] at ha
  unfold Part.bits
  obtain h | ⟨hm, h⟩ := h
  · omega
  · omega

theorem toNat_ofNat_small {n : Nat} (h : n < 0xD800) : (Char.ofNat n).toNat = n := by
  rw [Char.ofNat, dif_pos (.inl h)]
  rfl

theorem ofNat_high {n : Nat} {c : Char} (h : 0x80 ≤ n) (hc : c = Char.ofNat n) :
    0x80 ≤ c.toNat ∨ c.toNat = 0 := by
  subst hc
  by_cases hv : n.isValidChar
  · rw [Char.ofNat, dif_pos hv]
    exact .inl h
  · rw [Char.ofNat, dif_neg hv]
    exact .inr rfl

theorem mem_feed_ascii {c : Char} (hc : c.toNat < 0x80) (h0 : c.toNat ≠ 0) {bs : List UInt8}
    {s : Option Part} (hs : ∀ p, s = some p → p.High) (h : c ∈ (feed s bs).2) :
    ∃ b ∈ bs, b.toNat = c.toNat := by
  have hrep : c ≠ replacement := by
    rintro rfl
    exact absurd hc (by decide)
  have hstart (n : Nat) (hm : c ∈ (start n).2) : n = c.toNat := by
    unfold start at hm
    split at hm
    · obtain rfl := List.mem_singleton.mp hm
      rw [toNat_ofNat_small (by omega)]
    · split at hm
      · cases hm
      · split at hm
        · cases hm
        · split at hm
          · cases hm
          · exact absurd (List.mem_singleton.mp hm) hrep
  induction bs generalizing s with
  | nil => cases h
  | cons b bs ih =>
    obtain h | h := List.mem_append.mp h
    · refine ⟨b, List.mem_cons_self, ?_⟩
      cases s with
      | none => exact hstart _ h
      | some p =>
        rw [step] at h
        split at h
        · rename_i hacc
          split at h
          · rename_i hm
            have hb := ((hs p rfl).bits hacc).2 hm
            have hh := ofNat_high hb (List.mem_singleton.mp h)
            omega
          · cases h
        · obtain h | h := List.mem_cons.mp h
          · exact absurd h hrep
          · exact hstart _ h
    · have hnext : ∀ q, (step s b).1 = some q → q.High := by
        intro q hq
        cases s with
        | none => exact start_high hq
        | some p =>
          rw [step] at hq
          split at hq
          · rename_i hacc
            split at hq
            · cases hq
            · obtain rfl := Option.some.inj hq
              exact .inl ((hs p rfl).bits hacc).1
          · exact start_high hq
      obtain ⟨d, hd, he⟩ := ih hnext h
      exact ⟨d, List.mem_cons_of_mem b hd, he⟩

theorem mem_lossy_ascii {c : Char} (hc : c.toNat < 0x80) (h0 : c.toNat ≠ 0) {bs : List UInt8}
    (h : c ∈ lossy bs) : ∃ b ∈ bs, b.toNat = c.toNat := by
  obtain h | h := List.mem_append.mp h
  · exact mem_feed_ascii hc h0 (by simp) h
  · cases hf : (feed none bs).1 with
    | none =>
      rw [hf] at h
      cases h
    | some p =>
      rw [hf] at h
      obtain rfl := List.mem_singleton.mp h
      exact absurd hc (by decide)

theorem start_shown (n : Nat) : (start n).1 ≠ none ∨ (start n).2 ≠ [] := by
  unfold start
  split_ifs <;> simp

theorem step_shown (s : Option Part) (b : UInt8) : (step s b).1 ≠ none ∨ (step s b).2 ≠ [] := by
  cases s with
  | none => exact start_shown b.toNat
  | some p =>
    rw [step]
    split_ifs <;> simp

theorem feed_shown {s : Option Part} {bs : List UInt8} (h : s ≠ none ∨ bs ≠ []) :
    (feed s bs).2 ++ finish (feed s bs).1 ≠ [] := by
  induction bs generalizing s with
  | nil =>
    cases s with
    | none => simp at h
    | some p => simp [feed, finish]
  | cons b bs ih =>
    rcases step_shown s b with hs | hs
    · simpa [feed] using fun _ => ih (.inl hs)
    · simp [feed, hs]

theorem lossy_ne_nil {bs : List UInt8} (h : bs ≠ []) : lossy bs ≠ [] := feed_shown (.inr h)

theorem encodeChar_head (c : Char) :
    ∃ b bs, String.utf8EncodeChar c = b :: bs ∧ isTail b = false := by
  generalize hb : String.utf8EncodeChar c = bs
  have hs : Shape c bs := hb ▸ shape c
  cases hs with
  | @ascii b hlt => exact ⟨b, [], rfl, by simp [isTail]; omega⟩
  | @long b p bs hstart =>
    refine ⟨b, bs, rfl, ?_⟩
    cases ht : isTail b with
    | false => rfl
    | true =>
      have hstray := step_stray ht
      rw [step, hstart] at hstray
      cases hstray

theorem front_of_head {t : List Char} {i : Nat} {b : UInt8} (hb : (encode t)[i]? = some b)
    (hn : isTail b = false) : ∃ s, s <+: t ∧ (encode s).length = i := by
  obtain ⟨hi, -⟩ := List.getElem?_eq_some_iff.mp hb
  cases cut_cases t _ _ (List.take_append_drop i (encode t)).symm with
  | between s u ht hs hu =>
    refine ⟨s, ⟨u, ht.symm⟩, ?_⟩
    rw [← hs, List.length_take]
    omega
  | inside s u c pre suf ht hc hp hsuf hs hu =>
    -- what is behind the cut starts inside the character
    have htail := (feed_inside hc hp hsuf).2
    have hd : ((encode t).drop i)[0]? = some b := by simpa using hb
    rw [hu] at hd
    cases suf with
    | nil => exact absurd rfl hsuf
    | cons d suf =>
      have hdb : d = b := by simpa using hd
      have hdt := htail d List.mem_cons_self
      rw [hdb, hn] at hdt
      cases hdt

/-! ### Texts as their bytes -/

/-- `str` -/
structure Str where
  bytes : List UInt8
  valid : ∃ t, bytes = encode t
deriving DecidableEq

namespace Str

def of (t : List Char) : Str := ⟨encode t, t, rfl⟩

def len (s : Str) : Nat := s.bytes.length

def isCharBoundary (s : Str) (i : Nat) : Bool :=
  if i = 0 then true
  else
    match s.bytes[i]? with
    | some b => !isTail b
    | none => i == s.len

@[simp] theorem bytes_of (t : List Char) : (of t).bytes = encode t := rfl
@[simp] theorem len_of (t : List Char) : (of t).len = (encode t).length := rfl

theorem exists_of (s : Str) : ∃ t, s = of t := by
  obtain ⟨bytes, t, rfl⟩ := s
  exact ⟨t, rfl⟩

def text (s : Str) : List Char := lossy s.bytes

@[simp] theorem text_of (t : List Char) : (of t).text = t := lossy_encode t

theorem isCharBoundary_iff (t : List Char) (i : Nat) :
    (of t).isCharBoundary i = true ↔ ∃ s, s <+: t ∧ (encode s).length = i := by
  constructor
  · intro h
    unfold isCharBoundary at h
    split at h
    · next h0 => exact ⟨[], List.nil_prefix, h0.symm⟩
    · split at h
      · next b hb => exact front_of_head hb (by simpa using h)
      · exact ⟨t, List.prefix_rfl, (beq_iff_eq.mp h).symm⟩
  · rintro ⟨s, ⟨u, rfl⟩, rfl⟩
    unfold isCharBoundary
    cases u with
    | nil => simp
    | cons c u =>
      obtain ⟨b, bs, hc, hb⟩ := encodeChar_head c
      simp [encode_append, encode_cons, hc, hb]

theorem take_valid (s : Str) {i : Nat} (h : s.isCharBoundary i = true) :
    ∃ t, s.bytes.take i = encode t := by
  obtain ⟨t, rfl⟩ := s.exists_of
  obtain ⟨r, ⟨u, rfl⟩, rfl⟩ := (isCharBoundary_iff t i).mp h
  exact ⟨r, by simp [encode_append]⟩

/-- `&s[..i]`, which panics inside a character. -/
def sliceTo (s : Str) (i : Nat) : Option Str :=
  if h : s.isCharBoundary i = true then some ⟨s.bytes.take i, s.take_valid h⟩ else none

theorem sliceTo_front {t r : List Char} (h : r <+: t) :
    (of t).sliceTo (encode r).length = some (of r) := by
  have hb := (isCharBoundary_iff t (encode r).length).mpr ⟨r, h, rfl⟩
  obtain ⟨u, rfl⟩ := h
  rw [sliceTo, dif_pos hb]
  simp [of, encode_append]

/-- The greatest boundary within a number of bytes ends the longest fit. -/
theorem greatest_boundary (t : List Char) (max : Nat) :
    ∃ r, LongestFit t r max ∧
      (encode r).length = Nat.findGreatest (fun i => (of t).isCharBoundary i = true) max := by
  have hgreat := Nat.findGreatest_spec (P := fun i => (of t).isCharBoundary i = true)
    (Nat.zero_le max) rfl
  obtain ⟨r, hr, hlen⟩ := (isCharBoundary_iff t _).mp hgreat
  refine ⟨r, ⟨hr, hlen ▸ Nat.findGreatest_le max, fun s hs hfit => ?_⟩, hlen⟩
  have hb := (isCharBoundary_iff t _).mpr ⟨s, hs, rfl⟩
  have hle := Nat.le_findGreatest (P := fun i => (of t).isCharBoundary i = true) hfit hb
  rw [← hlen] at hle
  exact prefix_of_length_le hs hr hle

end Str

end ShellProxy.Utf8
