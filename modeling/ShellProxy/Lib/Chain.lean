import ShellProxy.Lib.Machine
import ShellProxy.Lib.Cells
import Mathlib.Algebra.Order.BigOperators.Group.Finset

/-! A loop of tasks joined by bounded buffers of items. Task `i` fills buffer `i` and the next task
empties it; the last buffer comes back to task `0`, which feeds the loop from a source. Every task
takes something only with empty hands, and while its hands are full it does nothing but put. -/
namespace ShellProxy.Chain
open Machine

/-- What a task gives on: the bytes of frames, the messages of the frames it reads, bytes one by
one, a message made of some bytes, some bytes of frames as they come, a message as it is. -/
inductive Kind where
  | encode
  | decode
  | split
  | pack
  | chunk
  | relay
  deriving DecidableEq, Repr

/-- A task of the first kind can empty the buffer of one of the second. -/
def Kind.takes : Kind → Kind → Bool
  | .encode, k | .relay, k => k = .decode || k = .pack || k = .relay
  | .split, k => k = .decode || k = .pack || k = .relay || k = .split
  | .pack, k => k = .split
  | .decode, k => k = .encode || k = .chunk
  | .chunk, k => k = .encode

/-- `most i` is how many items task `i` takes at a time (task `0`: how many tokens), `size` how long
a message can be. Tokens that are `alone` make up a message by themselves. -/
structure Loop (α : Type*) where
  last : Nat
  cap : Nat → Nat
  kind : Nat → Kind
  most : Nat → Nat
  size : Nat
  alone : α → Bool
  header : List α → Nat
  pass : Nat → α → α
  cap_pos : ∀ i, 0 < cap i
  most_pos : ∀ i, 0 < most i
  first : kind 0 = .encode
  final : kind last = .encode
  links : ∀ i < last, (kind (i + 1)).takes (kind i) = true
  single : ∀ i, kind (i + 1) = .encode ∨ kind (i + 1) = .relay → most (i + 1) = 1
  small : ∀ i, i = 0 ∨ kind i = .pack ∨ kind i = .chunk → most i ≤ size

/-- The items in the hands of a task and in its buffer, and what it has read of a frame. What task
`0` has received is the part behind the last task. -/
structure State (α : Type*) where
  source : List α
  hand : Nat → List (List (Cell α)) := fun _ => []
  buf : Nat → List (List (Cell α)) := fun _ => []
  part : Nat → List (Cell α) := fun _ => []

inductive Ev where
  | read (k : Nat)
  | put (i : Nat)
  | take (i k : Nat)
  | recv

variable {α : Type*}

namespace Loop
variable (L : Loop α)

def Apart (m : List α) : Prop := m.length = 1 ∨ ∀ t ∈ m, L.alone t = false

instance (m : List α) : Decidable (L.Apart m) := inferInstanceAs (Decidable (_ ∨ _))

def Message (m : List α) : Prop := m ≠ [] ∧ m.length ≤ L.size ∧ L.Apart m

def singles (l : List (Cell α)) : List (List (Cell α)) := l.map fun c => [c]

/-- What task `i` makes of these bytes, and what it has begun to read afterwards. -/
def work (i : Nat) (part xs : List (Cell α)) : List (List (Cell α)) × List (Cell α) :=
  match L.kind i with
  | .encode => (singles (frame (L.header (tokens xs)) (tokens xs)), part)
  | .decode => decode part xs
  | .split => (singles (plain ((tokens xs).map (L.pass i))), part)
  | .pack | .chunk | .relay => ([xs], part)

/-- What a task of this kind has in its hands and in its buffer. -/
def Item : Kind → List (Cell α) → Prop
  | .encode, x => ∃ c, x = [c]
  | .split, x => ∃ t, x = plain [t]
  | .chunk, x => x ≠ [] ∧ x.length ≤ L.size
  | .decode, x | .pack, x | .relay, x => ∃ m, L.Message m ∧ x = plain m

end Loop

def step (L : Loop α) (s : State α) : Ev → Option (State α)
  | .read k =>
    if s.hand 0 = [] ∧ 0 < k ∧ k ≤ s.source.length ∧ k ≤ L.most 0 ∧
        L.Apart (s.source.take k) then
      some { s with
        source := s.source.drop k
        hand := Function.update s.hand 0 (L.work 0 [] (plain (s.source.take k))).1 }
    else none
  | .put i =>
    match s.hand i with
    | x :: rest =>
      if i ≤ L.last ∧ (s.buf i).length < L.cap i then
        some { s with
          hand := Function.update s.hand i rest
          buf := Function.update s.buf i (s.buf i ++ [x]) }
      else none
    | [] => none
  | .take i k =>
    if i < L.last ∧ s.hand (i + 1) = [] ∧ 0 < k ∧ k ≤ (s.buf i).length ∧ k ≤ L.most (i + 1) ∧
        (L.kind (i + 1) = .pack → L.Apart (tokens ((s.buf i).take k).flatten)) then
      let made := L.work (i + 1) (s.part (i + 1)) ((s.buf i).take k).flatten
      some { s with
        hand := Function.update s.hand (i + 1) made.1
        part := Function.update s.part (i + 1) made.2
        buf := Function.update s.buf i ((s.buf i).drop k) }
    else none
  | .recv =>
    match s.buf L.last with
    | x :: rest =>
      if s.hand 0 = [] then
        some { s with
          buf := Function.update s.buf L.last rest
          part := Function.update s.part (L.last + 1) (s.part (L.last + 1) ++ x) }
      else none
    | [] => none

/-- The bytes from the front of buffer `i` to the hands that fill it. -/
def pair (s : State α) (i : Nat) : List (Cell α) := (s.buf i ++ s.hand i).flatten

/-- The bytes on their way to the reader of frames behind buffer `i`. -/
def flow (L : Loop α) (s : State α) (i : Nat) : List (Cell α) :=
  pair s i ++ if L.kind i = .chunk then pair s (i - 1) else []

/-- Who empties buffer `i` reads frames. -/
def Loop.Reads (L : Loop α) (i : Nat) : Prop := i = L.last ∨ L.kind (i + 1) = .decode

structure Sound (L : Loop α) (s : State α) : Prop where
  fits : ∀ i, (s.buf i).length ≤ L.cap i
  items : ∀ i ≤ L.last, ∀ x ∈ s.buf i ++ s.hand i, L.Item (L.kind i) x
  begun : ∀ i ≤ L.last, ∀ c ∈ s.part i, c.last = false
  idle : ∀ i ≤ L.last, L.kind i ≠ .decode → s.part i = []
  whole : ∀ i ≤ L.last, L.Reads i → ∃ ms, (∀ m ∈ ms, L.Message m) ∧
    s.part (i + 1) ++ flow L s i = frames L.header ms

section
variable {L : Loop α} {s t : State α} {e : Ev}

theorem singles_flatten (l : List (Cell α)) : (Loop.singles l).flatten = l := by
  induction l with
  | nil => rfl
  | cons c l ih =>
    change [c] ++ (Loop.singles l).flatten = c :: l
    rw [ih, List.singleton_append]

theorem mem_singles {l : List (Cell α)} {x : List (Cell α)} :
    x ∈ Loop.singles l ↔ ∃ c ∈ l, x = [c] := by
  simp [Loop.singles, eq_comm]

theorem read_spec {k : Nat} (hs : step L s (.read k) = some t) : ∃ m, L.Message m ∧
    s.source = m ++ t.source ∧ s.hand 0 = [] ∧ t = { s with
      source := t.source
      hand := Function.update s.hand 0 (Loop.singles (frame (L.header m) m)) } := by
  obtain ⟨⟨he, hk, hle, hmost, hap⟩, hs⟩ := Option.ite_none_right_eq_some.mp hs
  obtain rfl := Option.some.inj hs
  have hlen : (s.source.take k).length = k := by
    rw [List.length_take]
    omega
  refine ⟨s.source.take k, ⟨?_, ?_, hap⟩, (List.take_append_drop k s.source).symm, he, ?_⟩
  · exact List.ne_nil_of_length_pos (by omega)
  · have hsmall := L.small 0 (.inl rfl)
    omega
  · simp only [Loop.work, L.first, tokens_plain]

theorem put_spec {i : Nat} (hs : step L s (.put i) = some t) : ∃ x rest, s.hand i = x :: rest ∧
    i ≤ L.last ∧ (s.buf i).length < L.cap i ∧ t = { s with
      hand := Function.update s.hand i rest
      buf := Function.update s.buf i (s.buf i ++ [x]) } := by
  cases hh : s.hand i with
  | nil => simp [step, hh] at hs
  | cons x rest =>
    simp only [step, hh] at hs
    obtain ⟨⟨hi, hlt⟩, hs⟩ := Option.ite_none_right_eq_some.mp hs
    exact ⟨x, rest, rfl, hi, hlt, (Option.some.inj hs).symm⟩

theorem recv_spec (hs : step L s .recv = some t) : ∃ x rest, s.buf L.last = x :: rest ∧
    s.hand 0 = [] ∧ t = { s with
      buf := Function.update s.buf L.last rest
      part := Function.update s.part (L.last + 1) (s.part (L.last + 1) ++ x) } := by
  cases hb : s.buf L.last with
  | nil => simp [step, hb] at hs
  | cons x rest =>
    simp only [step, hb] at hs
    obtain ⟨he, hs⟩ := Option.ite_none_right_eq_some.mp hs
    exact ⟨x, rest, rfl, he, (Option.some.inj hs).symm⟩

structure Takes (L : Loop α) (s : State α) (i : Nat) (xs : List (List (Cell α))) (t : State α) :
    Prop where
  inside : i < L.last
  free : s.hand (i + 1) = []
  some : xs ≠ []
  most : xs.length ≤ L.most (i + 1)
  apart : L.kind (i + 1) = .pack → L.Apart (tokens xs.flatten)
  buf : s.buf i = xs ++ t.buf i
  buf_ne : ∀ j, j ≠ i → t.buf j = s.buf j
  hand : t.hand (i + 1) = (L.work (i + 1) (s.part (i + 1)) xs.flatten).1
  hand_ne : ∀ j, j ≠ i + 1 → t.hand j = s.hand j
  part : t.part (i + 1) = (L.work (i + 1) (s.part (i + 1)) xs.flatten).2
  part_ne : ∀ j, j ≠ i + 1 → t.part j = s.part j
  source : t.source = s.source

theorem take_spec {i k : Nat} (hs : step L s (.take i k) = some t) :
    Takes L s i ((s.buf i).take k) t := by
  obtain ⟨⟨hi, he, hk, hle, hmost, hap⟩, hs⟩ := Option.ite_none_right_eq_some.mp hs
  obtain rfl := Option.some.inj hs
  have hlen : ((s.buf i).take k).length = k := by
    rw [List.length_take]
    omega
  constructor
  · exact hi
  · exact he
  · exact List.ne_nil_of_length_pos (by omega)
  · omega
  · exact hap
  · simp
  · exact fun j hj => Function.update_of_ne hj _ _
  · exact Function.update_self _ _ _
  · exact fun j hj => Function.update_of_ne hj _ _
  · exact Function.update_self _ _ _
  · exact fun j hj => Function.update_of_ne hj _ _
  · rfl

theorem Takes.pair_from {i : Nat} {xs : List (List (Cell α))} (h : Takes L s i xs t) :
    pair s i = xs.flatten ++ pair t i := by
  rw [pair, pair, h.buf, h.hand_ne i (by omega), List.append_assoc, List.flatten_append]

theorem Takes.pair_to {i : Nat} {xs : List (List (Cell α))} (h : Takes L s i xs t) :
    pair t (i + 1) = pair s (i + 1) ++ (t.hand (i + 1)).flatten := by
  rw [pair, pair, h.free, h.buf_ne (i + 1) (by omega), List.append_nil, List.flatten_append]

theorem Takes.pair_ne {i j : Nat} {xs : List (List (Cell α))} (h : Takes L s i xs t) (hj : j ≠ i)
    (hj' : j ≠ i + 1) : pair t j = pair s j := by
  rw [pair, pair, h.buf_ne j hj, h.hand_ne j hj']

theorem flow_eq {i : Nat} (h : L.kind i ≠ .chunk) : flow L s i = pair s i := by
  rw [flow, if_neg h, List.append_nil]

theorem flow_chunk {i : Nat} (h : L.kind i = .chunk) :
    flow L s i = pair s i ++ pair s (i - 1) := by
  rw [flow, if_pos h]

theorem flow_congr {i : Nat} (h : pair t i = pair s i)
    (hc : L.kind i = .chunk → pair t (i - 1) = pair s (i - 1)) : flow L t i = flow L s i := by
  by_cases hk : L.kind i = .chunk
  · rw [flow_chunk hk, flow_chunk hk, h, hc hk]
  · rw [flow_eq hk, flow_eq hk, h]

theorem takes_chunk {k : Kind} (h : Kind.chunk.takes k = true) : k = .encode := by
  simpa [Kind.takes] using h

theorem takes_decode {k : Kind} (h : Kind.decode.takes k = true) : k = .encode ∨ k = .chunk := by
  simpa [Kind.takes] using h

theorem chunk_front {i : Nat} (hi : i ≤ L.last) (hk : L.kind i = .chunk) :
    0 < i ∧ L.kind (i - 1) = .encode := by
  cases i with
  | zero =>
    rw [L.first] at hk
    cases hk
  | succ i =>
    have hl := L.links i (by omega)
    rw [hk] at hl
    exact ⟨by omega, takes_chunk hl⟩

theorem not_reads {i : Nat} (hi : i < L.last) (hk : L.kind (i + 1) ≠ .decode) : ¬ L.Reads i := by
  rintro (h | h)
  · omega
  · exact hk h

/-- A new frame behind the bytes of task `a` is a new frame for whoever reads them. -/
theorem whole_grow (h : Sound L s) {a : Nat} (ha : L.kind a = .encode) {m : List α}
    (hm : L.Message m) (hpart : ∀ i, t.part i = s.part i)
    (hpair : pair t a = pair s a ++ frame (L.header m) m) {i : Nat} (hi : i ≤ L.last)
    (hsame : i ≠ a → pair t i = pair s i)
    (hprev : L.kind i = .chunk → i - 1 ≠ a → pair t (i - 1) = pair s (i - 1)) (hr : L.Reads i) :
    ∃ ms, (∀ m ∈ ms, L.Message m) ∧ t.part (i + 1) ++ flow L t i = frames L.header ms := by
  obtain ⟨ms, hms, hall⟩ := h.whole i hi hr
  have hgrown : flow L t i = flow L s i ++ frame (L.header m) m →
      ∃ ms, (∀ m ∈ ms, L.Message m) ∧ t.part (i + 1) ++ flow L t i = frames L.header ms := by
    intro hf
    refine ⟨ms ++ [m], ?_, ?_⟩
    · exact List.forall_mem_append.mpr ⟨hms, List.forall_mem_singleton.mpr hm⟩
    · rw [hf, hpart, ← List.append_assoc, hall, frames_append, frames_cons, frames_nil,
        List.append_nil]
  by_cases hia : i = a
  · subst hia
    apply hgrown
    have hk : L.kind i ≠ .chunk := by
      rw [ha]
      exact nofun
    rw [flow_eq hk, flow_eq hk, hpair]
  · by_cases hc : L.kind i = .chunk ∧ i - 1 = a
    · obtain ⟨hk, hprev⟩ := hc
      apply hgrown
      rw [flow_chunk hk, flow_chunk hk, hsame hia, hprev, hpair, List.append_assoc]
    · refine ⟨ms, hms, ?_⟩
      rw [hpart, flow_congr (hsame hia) fun hk => hprev hk fun hp => hc ⟨hk, hp⟩, hall]

theorem flow_take {i j : Nat} {xs : List (List (Cell α))} (h : Takes L s i xs t) (hj : j ≤ L.last)
    (hji : j ≠ i) (hr : L.Reads j)
    (hk : L.kind (i + 1) ≠ .encode) (hc : L.kind (i + 1) ≠ .chunk) :
    flow L t j = flow L s j := by
  -- what task `i + 1` puts is not read as frames
  have hto : j ≠ i + 1 := by
    rintro rfl
    rcases hr with hlast | hread
    · exact hk (hlast ▸ L.final)
    · have hlt : i + 1 < L.last := by
        have hle := hj
        by_contra hge
        exact hk ((show i + 1 = L.last by omega) ▸ L.final)
      have hl := L.links (i + 1) hlt
      rw [hread] at hl
      rcases takes_decode hl with he | he
      · exact hk he
      · exact hc he
  refine flow_congr (h.pair_ne hji hto) fun hch => ?_
  obtain ⟨hpos, hfront⟩ := chunk_front hj hch
  refine h.pair_ne ?_ ?_
  · intro hp
    exact hto (by omega)
  · intro hp
    exact hk (hp ▸ hfront)

theorem sound_read (h : Sound L s) {k : Nat} (hs : step L s (.read k) = some t) : Sound L t := by
  obtain ⟨m, hm, -, he, heq⟩ := read_spec hs
  have hhand : t.hand 0 = Loop.singles (frame (L.header m) m) := by
    rw [heq]
    exact Function.update_self 0 _ s.hand
  have hhand_ne : ∀ i, i ≠ 0 → t.hand i = s.hand i := by
    intro i hi
    rw [heq]
    exact Function.update_of_ne hi _ _
  have hbuf : t.buf = s.buf := by rw [heq]
  have hpart : t.part = s.part := by rw [heq]
  have hpair : pair t 0 = pair s 0 ++ frame (L.header m) m := by
    rw [pair, pair, hbuf, hhand, he, List.flatten_append, singles_flatten, List.append_nil]
  have hpair_ne : ∀ i, i ≠ 0 → pair t i = pair s i := by
    intro i hi
    rw [pair, pair, hbuf, hhand_ne i hi]
  constructor
  · rw [hbuf]
    exact h.fits
  · intro i hi x hx
    rw [hbuf] at hx
    rcases List.mem_append.mp hx with hx | hx
    · exact h.items i hi x (List.mem_append_left _ hx)
    · by_cases h0 : i = 0
      · subst h0
        rw [hhand] at hx
        obtain ⟨c, -, rfl⟩ := mem_singles.mp hx
        rw [L.first]
        exact ⟨c, rfl⟩
      · rw [hhand_ne i h0] at hx
        exact h.items i hi x (List.mem_append_right _ hx)
  · rw [hpart]
    exact h.begun
  · rw [hpart]
    exact h.idle
  · intro i hi hr
    exact whole_grow h L.first hm (fun j => by rw [hpart]) hpair hi (hpair_ne i)
      (fun _ hp => hpair_ne _ hp) hr

theorem sound_put (h : Sound L s) {i : Nat} (hs : step L s (.put i) = some t) : Sound L t := by
  obtain ⟨x, rest, hh, hi, hlt, rfl⟩ := put_spec hs
  have hmoved : ∀ j, Function.update s.buf i (s.buf i ++ [x]) j ++ Function.update s.hand i rest j =
      s.buf j ++ s.hand j := by
    intro j
    by_cases hj : j = i
    · subst hj
      rw [Function.update_self, Function.update_self, hh, List.append_assoc, List.singleton_append]
    · rw [Function.update_of_ne hj, Function.update_of_ne hj]
  have hflow : ∀ j, flow L { s with
      hand := Function.update s.hand i rest
      buf := Function.update s.buf i (s.buf i ++ [x]) } j = flow L s j := by
    intro j
    exact flow_congr (congrArg List.flatten (hmoved j))
      fun _ => congrArg List.flatten (hmoved (j - 1))
  constructor
  · intro j
    by_cases hj : j = i
    · subst hj
      simp only [Function.update_self, List.length_append, List.length_singleton]
      omega
    · simpa only [Function.update_of_ne hj] using h.fits j
  · intro j hj y hy
    exact h.items j hj y (hmoved j ▸ hy)
  · exact h.begun
  · exact h.idle
  · intro j hj hr
    rw [hflow]
    exact h.whole j hj hr

theorem sound_recv (h : Sound L s) (hs : step L s .recv = some t) : Sound L t := by
  obtain ⟨x, rest, hb, -, heq⟩ := recv_spec hs
  have hbuf : t.buf L.last = rest := by
    rw [heq]
    exact Function.update_self _ _ _
  have hbuf_ne : ∀ j, j ≠ L.last → t.buf j = s.buf j := by
    intro j hj
    rw [heq]
    exact Function.update_of_ne hj _ _
  have hhand : t.hand = s.hand := by rw [heq]
  have hpart : t.part (L.last + 1) = s.part (L.last + 1) ++ x := by
    rw [heq]
    exact Function.update_self _ _ _
  have hpart_ne : ∀ j, j ≠ L.last + 1 → t.part j = s.part j := by
    intro j hj
    rw [heq]
    exact Function.update_of_ne hj _ _
  have hpair : pair s L.last = x ++ pair t L.last := by
    rw [pair, pair, hbuf, hb, hhand, List.cons_append, List.flatten_cons]
  have hpair_ne : ∀ j, j ≠ L.last → pair t j = pair s j := by
    intro j hj
    rw [pair, pair, hbuf_ne j hj, hhand]
  have hfinal : L.kind L.last ≠ .chunk := by
    rw [L.final]
    exact nofun
  constructor
  · intro j
    by_cases hj : j = L.last
    · have hf := h.fits L.last
      rw [hb, List.length_cons] at hf
      rw [hj, hbuf]
      omega
    · rw [hbuf_ne j hj]
      exact h.fits j
  · intro j hj y hy
    rw [hhand] at hy
    by_cases hl : j = L.last
    · subst hl
      rw [hbuf] at hy
      refine h.items _ hj y ?_
      rw [hb]
      exact List.mem_cons_of_mem x hy
    · rw [hbuf_ne j hl] at hy
      exact h.items j hj y hy
  · intro j hj
    rw [hpart_ne j (by omega)]
    exact h.begun j hj
  · intro j hj
    rw [hpart_ne j (by omega)]
    exact h.idle j hj
  · intro j hj hr
    obtain ⟨ms, hms, hall⟩ := h.whole j hj hr
    refine ⟨ms, hms, ?_⟩
    by_cases hl : j = L.last
    · subst hl
      rw [flow_eq hfinal, hpart, List.append_assoc, ← hpair]
      rwa [flow_eq hfinal] at hall
    · have hprev : L.kind j = .chunk → j - 1 ≠ L.last := fun hk => by
        have hpos := (chunk_front hj hk).1
        omega
      rw [hpart_ne _ (by omega), flow_congr (hpair_ne j hl) fun hk => hpair_ne _ (hprev hk), hall]

theorem takes_message {k : Kind} (h : Kind.encode.takes k = true ∨ Kind.relay.takes k = true)
    {x : List (Cell α)} (hx : L.Item k x) : ∃ m, L.Message m ∧ x = plain m := by
  cases k with
  | decode | pack | relay => exact hx
  | encode | split | chunk => simp [Kind.takes] at h

theorem length_singles {xs : List (List (Cell α))} (h : ∀ x ∈ xs, ∃ c, x = [c]) :
    xs.flatten.length = xs.length := by
  induction xs with
  | nil => rfl
  | cons x xs ih =>
    obtain ⟨c, rfl⟩ := h x List.mem_cons_self
    have hrest := ih fun y hy => h y (List.mem_cons_of_mem _ hy)
    rw [List.flatten_cons, List.length_append, hrest, List.length_singleton, List.length_cons]
    omega

theorem plain_tokens {xs : List (List (Cell α))} (h : ∀ x ∈ xs, ∃ m, x = plain m) :
    plain (tokens xs.flatten) = xs.flatten := by
  induction xs with
  | nil => rfl
  | cons x xs ih =>
    obtain ⟨m, rfl⟩ := h x List.mem_cons_self
    rw [List.flatten_cons, tokens_append, tokens_plain, plain_append,
      ih fun y hy => h y (List.mem_cons_of_mem _ hy)]

theorem Takes.item {i : Nat} {xs : List (List (Cell α))} (h : Takes L s i xs t) (hsound : Sound L s)
    {x : List (Cell α)} (hx : x ∈ xs) : L.Item (L.kind i) x := by
  refine hsound.items i (by have hi := h.inside; omega) x (List.mem_append_left _ ?_)
  rw [h.buf]
  exact List.mem_append_left _ hx

theorem Takes.message {i : Nat} {xs : List (List (Cell α))} (h : Takes L s i xs t)
    (hsound : Sound L s) (hk : L.kind (i + 1) = .encode ∨ L.kind (i + 1) = .relay) :
    ∃ m, L.Message m ∧ xs = [plain m] := by
  have hone := L.single i hk
  have hmost := h.most
  have hlen := List.length_pos_of_ne_nil h.some
  obtain ⟨x, rfl⟩ := List.length_eq_one_iff.mp (show xs.length = 1 by omega)
  have hl := L.links i h.inside
  have htakes : Kind.encode.takes (L.kind i) = true ∨ Kind.relay.takes (L.kind i) = true :=
    hk.imp (fun he => by rwa [he] at hl) fun he => by rwa [he] at hl
  obtain ⟨m, hm, rfl⟩ := takes_message htakes (h.item hsound List.mem_cons_self)
  exact ⟨m, hm, rfl⟩

theorem Takes.decodes {i : Nat} {xs : List (List (Cell α))} (h : Takes L s i xs t)
    (hsound : Sound L s) (hk : L.kind (i + 1) = .decode) :
    ∃ done left, (∀ m ∈ done ++ left, L.Message m) ∧ t.hand (i + 1) = done.map plain ∧
      (∀ c ∈ t.part (i + 1), c.last = false) ∧
      t.part (i + 1) ++ flow L t i = frames L.header left := by
  have hi := h.inside
  obtain ⟨ms, hms, hall⟩ := hsound.whole i (by omega) (.inr hk)
  have hflow : flow L s i = xs.flatten ++ flow L t i := by
    by_cases hc : L.kind i = .chunk
    · have hpos := (chunk_front (by omega) hc).1
      have hprev := h.pair_ne (show i - 1 ≠ i by omega) (by omega)
      rw [flow_chunk hc, flow_chunk hc, h.pair_from, hprev, List.append_assoc]
    · rw [flow_eq hc, flow_eq hc, h.pair_from]
  rw [hflow] at hall
  obtain ⟨done, left, rfl, hdone, hopen, hleft⟩ :=
    decode_frames (fun m hm => (hms m hm).1) (hsound.begun (i + 1) (by omega)) hall
  have hwork : L.work (i + 1) (s.part (i + 1)) xs.flatten =
      decode (s.part (i + 1)) xs.flatten := by rw [Loop.work, hk]
  refine ⟨done, left, hms, ?_, ?_, ?_⟩
  · rw [h.hand, hwork, hdone]
  · rw [h.part, hwork]
    exact hopen
  · rw [h.part, hwork, hleft]

theorem Takes.part_same {i : Nat} {xs : List (List (Cell α))} (h : Takes L s i xs t)
    (hk : L.kind (i + 1) ≠ .decode) (j : Nat) : t.part j = s.part j := by
  by_cases hj : j = i + 1
  · subst hj
    rw [h.part, Loop.work]
    cases hkind : L.kind (i + 1) with
    | decode => exact absurd hkind hk
    | encode | split | pack | chunk | relay => rfl
  · exact h.part_ne j hj

theorem Takes.made {i : Nat} {xs : List (List (Cell α))} (h : Takes L s i xs t)
    (hsound : Sound L s) : ∀ x ∈ t.hand (i + 1), L.Item (L.kind (i + 1)) x := by
  have hi := h.inside
  have hl := L.links i hi
  have hlen := List.length_pos_of_ne_nil h.some
  have hmost := h.most
  intro x hx
  cases hk : L.kind (i + 1) with
  | decode =>
    obtain ⟨done, left, hms, hdone, -, -⟩ := h.decodes hsound hk
    rw [hdone] at hx
    obtain ⟨m, hm, rfl⟩ := List.mem_map.mp hx
    exact ⟨m, hms m (List.mem_append_left _ hm), rfl⟩
  | encode =>
    rw [h.hand, Loop.work, hk] at hx
    obtain ⟨c, -, rfl⟩ := mem_singles.mp hx
    exact ⟨c, rfl⟩
  | split =>
    rw [h.hand, Loop.work, hk] at hx
    obtain ⟨c, hc, rfl⟩ := mem_singles.mp hx
    obtain ⟨a, -, rfl⟩ := List.mem_map.mp hc
    exact ⟨a, rfl⟩
  | relay =>
    obtain ⟨m, hm, rfl⟩ := h.message hsound (.inr hk)
    rw [h.hand, Loop.work, hk] at hx
    refine ⟨m, hm, ?_⟩
    simpa using hx
  | pack =>
    rw [hk] at hl
    have hbytes : ∀ y ∈ xs, ∃ a, y = plain [a] := by
      intro y hy
      have hitem := h.item hsound hy
      rwa [show L.kind i = .split by simpa [Kind.takes] using hl] at hitem
    have hplain : plain (tokens xs.flatten) = xs.flatten :=
      plain_tokens fun y hy => (hbytes y hy).elim fun a ha => ⟨[a], ha⟩
    have hcount : (tokens xs.flatten).length = xs.length := by
      rw [← length_plain, hplain]
      apply length_singles
      intro y hy
      obtain ⟨a, rfl⟩ := hbytes y hy
      exact ⟨_, rfl⟩
    have hsmall := L.small (i + 1) (.inr (.inl hk))
    rw [h.hand, Loop.work, hk, List.mem_singleton] at hx
    subst hx
    refine ⟨tokens xs.flatten, ⟨?_, by omega, h.apart hk⟩, hplain.symm⟩
    exact List.ne_nil_of_length_pos (by omega)
  | chunk =>
    rw [hk] at hl
    have hbytes : ∀ y ∈ xs, ∃ c, y = [c] := by
      intro y hy
      have hitem := h.item hsound hy
      rwa [takes_chunk hl] at hitem
    have hcount := length_singles hbytes
    have hsmall := L.small (i + 1) (.inr (.inr hk))
    rw [h.hand, Loop.work, hk, List.mem_singleton] at hx
    subst hx
    exact ⟨List.ne_nil_of_length_pos (by omega), by omega⟩

theorem Takes.whole {i j : Nat} {xs : List (List (Cell α))} (h : Takes L s i xs t)
    (hsound : Sound L s) (hj : j ≤ L.last) (hr : L.Reads j) :
    ∃ ms, (∀ m ∈ ms, L.Message m) ∧ t.part (j + 1) ++ flow L t j = frames L.header ms := by
  have hi := h.inside
  obtain ⟨ms, hms, hall⟩ := hsound.whole j hj hr
  cases hk : L.kind (i + 1) with
  | decode =>
    by_cases hji : j = i
    · subst hji
      obtain ⟨done, left, hboth, -, -, hleft⟩ := h.decodes hsound hk
      exact ⟨left, fun m hm => hboth m (List.mem_append_right _ hm), hleft⟩
    · refine ⟨ms, hms, ?_⟩
      rw [h.part_ne _ (by omega), flow_take h hj hji hr (by simp [hk]) (by simp [hk]), hall]
  | split | pack | relay =>
    have hno := not_reads hi (by simp [hk])
    have hji : j ≠ i := fun he => hno (he ▸ hr)
    refine ⟨ms, hms, ?_⟩
    rw [h.part_same (by simp [hk]), flow_take h hj hji hr (by simp [hk]) (by simp [hk]), hall]
  | encode =>
    have hno := not_reads hi (by simp [hk])
    have hji : j ≠ i := fun he => hno (he ▸ hr)
    obtain ⟨m, hm, rfl⟩ := h.message hsound (.inl hk)
    have hframe : (t.hand (i + 1)).flatten = frame (L.header m) m := by
      simp only [h.hand, Loop.work, hk, List.flatten_cons, List.flatten_nil, List.append_nil,
        tokens_plain, singles_flatten]
    refine whole_grow hsound hk hm (h.part_same (by simp [hk])) (hframe ▸ h.pair_to) hj
      (h.pair_ne hji) (fun hc hp => h.pair_ne ?_ hp) hr
    intro hp
    have hpos := (chunk_front hj hc).1
    rw [show j = i + 1 by omega, hk] at hc
    cases hc
  | chunk =>
    have hno := not_reads hi (by simp [hk])
    have hji : j ≠ i := fun he => hno (he ▸ hr)
    refine ⟨ms, hms, ?_⟩
    rw [h.part_same (by simp [hk]), ← hall]
    congr 1
    by_cases hto : j = i + 1
    · -- the bytes only move on
      subst hto
      have hmade : (t.hand (i + 1)).flatten = xs.flatten := by
        simp only [h.hand, Loop.work, hk, List.flatten_cons, List.flatten_nil, List.append_nil]
      rw [flow_chunk hk, flow_chunk hk, h.pair_to, hmade, Nat.add_sub_cancel, h.pair_from,
        List.append_assoc]
    · refine flow_congr (h.pair_ne hji hto) fun hc => ?_
      obtain ⟨hpos, hfront⟩ := chunk_front hj hc
      refine h.pair_ne (fun hp => hto (by omega)) fun hp => ?_
      rw [hp, hk] at hfront
      cases hfront

theorem sound_take (h : Sound L s) {i k : Nat} (hs : step L s (.take i k) = some t) :
    Sound L t := by
  have ht := take_spec hs
  constructor
  · intro j
    have hf := h.fits j
    by_cases hj : j = i
    · subst hj
      rw [ht.buf, List.length_append] at hf
      omega
    · rwa [ht.buf_ne j hj]
  · intro j hj x hx
    rcases List.mem_append.mp hx with hx | hx
    · refine h.items j hj x (List.mem_append_left _ ?_)
      by_cases hji : j = i
      · subst hji
        rw [ht.buf]
        exact List.mem_append_right _ hx
      · rwa [ht.buf_ne j hji] at hx
    · by_cases hji : j = i + 1
      · subst hji
        exact ht.made h x hx
      · rw [ht.hand_ne j hji] at hx
        exact h.items j hj x (List.mem_append_right _ hx)
  · intro j hj
    by_cases hd : j = i + 1 ∧ L.kind (i + 1) = .decode
    · obtain ⟨rfl, hk⟩ := hd
      obtain ⟨-, -, -, -, hopen, -⟩ := ht.decodes h hk
      exact hopen
    · have hsame : t.part j = s.part j := by
        by_cases hji : j = i + 1
        · exact ht.part_same (fun hk => hd ⟨hji, hk⟩) j
        · exact ht.part_ne j hji
      rw [hsame]
      exact h.begun j hj
  · intro j hj hk
    have hsame : t.part j = s.part j := by
      by_cases hji : j = i + 1
      · exact ht.part_same (hji ▸ hk) j
      · exact ht.part_ne j hji
    rw [hsame]
    exact h.idle j hj hk
  · exact fun j hj hr => ht.whole h hj hr

theorem sound_step (h : Sound L s) (hs : step L s e = some t) : Sound L t := by
  cases e with
  | read k => exact sound_read h hs
  | put i => exact sound_put h hs
  | take i k => exact sound_take h hs
  | recv => exact sound_recv h hs

theorem sound_init (L : Loop α) (l : List α) : Sound L { source := l } where
  fits := by simp
  items := by simp
  begun := by simp
  idle := by simp
  whole i _ _ := ⟨[], by simp, by simp [flow, pair]⟩

end

end ShellProxy.Chain
