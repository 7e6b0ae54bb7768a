import ShellProxy.Lib.Chain
import Mathlib.Tactic.Ring

/-! Where a loop of tasks stands still: with full hands at task `0` everything is full, with empty
ones everything is empty. -/
namespace ShellProxy.Chain
open Machine
variable {α : Type*} {L : Loop α} {s t : State α} {e : Ev}

def Blocked (L : Loop α) (s : State α) : Prop := ∀ e, step L s e = none

section Begun

/-- What a task has begun to read is the front of one frame. -/
theorem Sound.part_cut (h : Sound L s) {i : Nat} (hi : i < L.last) : s.part (i + 1) = [] ∨
    ∃ m rest, L.Message m ∧ rest ≠ [] ∧ s.part (i + 1) ++ rest = frame (L.header m) m := by
  by_cases hk : L.kind (i + 1) = .decode
  · obtain ⟨ms, hms, hall⟩ := h.whole i (Nat.le_of_lt hi) (.inr hk)
    cases ms with
    | nil => exact .inl (List.append_eq_nil_iff.mp hall).1
    | cons m rest =>
      have hm := hms m List.mem_cons_self
      -- the end of the frame is not among what is begun
      have hopen : ∀ x, s.part (i + 1) ≠ frame (L.header m) m ++ x := by
        intro x hx
        obtain ⟨body, b, hbody, -⟩ := frame_ends (L.header m) hm.1
        have hmem : (⟨some b, true⟩ : Cell α) ∈ s.part (i + 1) := by
          rw [hx, hbody]
          simp
        cases h.begun (i + 1) hi _ hmem
      rw [frames_cons] at hall
      rcases List.append_eq_append_iff.mp hall with ⟨a, ha, -⟩ | ⟨a, ha, -⟩
      · refine .inr ⟨m, a, hm, ?_, ha.symm⟩
        rintro rfl
        exact hopen [] (by rw [ha, List.append_nil, List.append_nil])
      · exact absurd ha (hopen a)
  · exact .inl (h.idle (i + 1) hi hk)

theorem Sound.part_empty (h : Sound L s) {i : Nat} (hi : i < L.last) (hflow : flow L s i = []) :
    s.part (i + 1) = [] := by
  by_cases hk : L.kind (i + 1) = .decode
  · obtain ⟨ms, hms, hall⟩ := h.whole i (Nat.le_of_lt hi) (.inr hk)
    rw [hflow, List.append_nil] at hall
    exact frames_open (fun m hm => (hms m hm).1) (h.begun (i + 1) hi) hall
  · exact h.idle (i + 1) hi hk

end Begun

section Blocked

theorem item_ne_nil {k : Kind} {x : List (Cell α)} (h : L.Item k x) : x ≠ [] := by
  cases k with
  | encode =>
    obtain ⟨c, rfl⟩ := h
    exact List.cons_ne_nil c []
  | split =>
    obtain ⟨a, rfl⟩ := h
    exact List.cons_ne_nil _ []
  | chunk => exact h.1
  | decode | pack | relay =>
    obtain ⟨m, hm, rfl⟩ := h
    exact fun hn => hm.1 (List.map_eq_nil_iff.mp hn)

theorem buf_full {i : Nat} (h : step L s (.put i) = none) (hi : i ≤ L.last) (hne : s.hand i ≠ []) :
    L.cap i ≤ (s.buf i).length := by
  obtain ⟨x, rest, hx⟩ := List.exists_cons_of_ne_nil hne
  by_contra hlt
  simp only [step, hx] at h
  rw [if_pos ⟨hi, by omega⟩] at h
  cases h

theorem hand_empty {i : Nat} (h : step L s (.put i) = none) (hi : i ≤ L.last)
    (hb : s.buf i = []) : s.hand i = [] := by
  by_contra hne
  have hf := buf_full h hi hne
  have hpos := L.cap_pos i
  rw [hb, List.length_nil] at hf
  omega

theorem hand_full (hsound : Sound L s) {i : Nat} (h : step L s (.take i 1) = none) (hi : i < L.last)
    (hne : s.buf i ≠ []) : s.hand (i + 1) ≠ [] := by
  intro he
  obtain ⟨x, rest, hx⟩ := List.exists_cons_of_ne_nil hne
  have hlen := List.length_pos_of_ne_nil hne
  have hapart : L.kind (i + 1) = .pack → L.Apart (tokens ((s.buf i).take 1).flatten) := by
    intro hk
    have hl := L.links i hi
    rw [hk] at hl
    have hitem := hsound.items i (by omega) x (by simp [hx])
    rw [show L.kind i = .split by simpa [Kind.takes] using hl] at hitem
    obtain ⟨a, rfl⟩ := hitem
    exact .inl (by simp [hx])
  simp only [step] at h
  rw [if_pos ⟨hi, he, Nat.one_pos, hlen, L.most_pos (i + 1), hapart⟩] at h
  cases h

theorem source_empty (h : step L s (.read 1) = none) (he : s.hand 0 = []) : s.source = [] := by
  by_contra hne
  have hlen := List.length_pos_of_ne_nil hne
  have hapart : L.Apart (s.source.take 1) := .inl (by rw [List.length_take]; omega)
  simp only [step] at h
  rw [if_pos ⟨he, Nat.one_pos, hlen, L.most_pos 0, hapart⟩] at h
  cases h

theorem last_empty (h : step L s .recv = none) (he : s.hand 0 = []) : s.buf L.last = [] := by
  cases hb : s.buf L.last with
  | nil => rfl
  | cons x rest => simp [step, hb, he] at h

def Full (L : Loop α) (s : State α) : Prop :=
  ∀ i ≤ L.last, s.hand i ≠ [] ∧ L.cap i ≤ (s.buf i).length

/-- Where no task can put or take anything and task `0` has full hands, everything is full. -/
theorem full_of_stuck (hsound : Sound L s) (hput : ∀ i, step L s (.put i) = none)
    (htake : ∀ i, step L s (.take i 1) = none) (h0 : s.hand 0 ≠ []) : Full L s := by
  intro i
  induction i with
  | zero => exact fun hi => ⟨h0, buf_full (hput _) hi h0⟩
  | succ i ih =>
    intro hi
    obtain ⟨-, hb⟩ := ih (by omega)
    have hpos := L.cap_pos i
    have hne : s.buf i ≠ [] := List.ne_nil_of_length_pos (by omega)
    have hhand := hand_full hsound (htake _) hi hne
    exact ⟨hhand, buf_full (hput _) hi hhand⟩

theorem Full.blocked (h : Full L s) : Blocked L s := by
  intro e
  have h0 := (h 0 (Nat.zero_le _)).1
  cases e with
  | read k => exact if_neg fun hg => h0 hg.1
  | take i k => exact if_neg fun hg => (h (i + 1) hg.1).1 hg.2.1
  | put i =>
    cases hh : s.hand i with
    | nil => simp [step, hh]
    | cons x rest =>
      simp only [step, hh]
      refine if_neg fun hg => ?_
      have hfull := (h i hg.1).2
      omega
  | recv =>
    cases hb : s.buf L.last with
    | nil => simp [step, hb]
    | cons x rest => simp [step, hb, h0]

/-- Where it is stuck with empty hands, there is nothing left but what it has received. -/
theorem Blocked.empty (h : Blocked L s) (hsound : Sound L s) (h0 : s.hand 0 = []) :
    s.source = [] ∧ ∀ i ≤ L.last, pair s i = [] ∧ s.part i = [] := by
  have hhand : ∀ i ≤ L.last, s.buf i = [] → s.hand i = [] := fun i hi => hand_empty (h _) hi
  -- from the last task back to the first
  have hback : ∀ n i, i + n = L.last → s.buf i = [] := by
    intro n
    induction n with
    | zero =>
      intro i hi
      rw [show i = L.last by omega]
      exact last_empty (h _) h0
    | succ n ih =>
      intro i hi
      by_contra hne
      exact hand_full hsound (h _) (by omega) hne (hhand (i + 1) (by omega) (ih (i + 1) (by omega)))
  have hpair : ∀ i ≤ L.last, pair s i = [] := by
    intro i hi
    have hb := hback (L.last - i) i (by omega)
    rw [pair, hb, hhand i hi hb]
    rfl
  refine ⟨source_empty (h _) h0, fun i hi => ⟨hpair i hi, ?_⟩⟩
  cases i with
  | zero =>
    refine hsound.idle 0 hi ?_
    rw [L.first]
    decide
  | succ i =>
    refine hsound.part_empty hi ?_
    rw [flow, hpair i (by omega), hpair (i - 1) (by omega)]
    split <;> rfl

end Blocked

section Content
variable {β : Type*} {f : α → β}

/-- The tokens that have not got past buffer `i - 1`, the first one first. -/
def before (s : State α) : Nat → List α
  | 0 => s.source
  | i + 1 => tokens (s.part (i + 1)) ++ (tokens (pair s i) ++ before s i)

def content (L : Loop α) (s : State α) : List α := before s (L.last + 1)

theorem before_same {n : Nat} (hsource : t.source = s.source)
    (h : ∀ i < n, t.part (i + 1) = s.part (i + 1) ∧ pair t i = pair s i) :
    before t n = before s n := by
  induction n with
  | zero => exact hsource
  | succ n ih =>
    obtain ⟨hpart, hpair⟩ := h n (Nat.lt_succ_self n)
    rw [before, before, hpart, hpair, ih fun i hi => h i (Nat.lt_succ_of_lt hi)]

theorem before_congr {m n : Nat} (hle : m ≤ n) (hm : (before t m).map f = (before s m).map f)
    (h : ∀ i, m ≤ i → i < n → t.part (i + 1) = s.part (i + 1) ∧ pair t i = pair s i) :
    (before t n).map f = (before s n).map f := by
  induction n, hle using Nat.le_induction with
  | base => exact hm
  | succ n hn ih =>
    obtain ⟨hpart, hpair⟩ := h n hn (Nat.lt_succ_self n)
    have hrest := ih fun i hi hlt => h i hi (Nat.lt_succ_of_lt hlt)
    simp only [before, hpart, hpair, List.map_append, hrest]

theorem work_map (hf : ∀ i a, f (L.pass i a) = f a) {i : Nat} {part : List (Cell α)}
    (hpart : L.kind i ≠ .decode → part = []) (xs : List (Cell α)) :
    (tokens (L.work i part xs).1.flatten ++ tokens (L.work i part xs).2).map f =
      (tokens part ++ tokens xs).map f := by
  cases hk : L.kind i with
  | decode =>
    simp only [Loop.work, hk]
    rw [← decode_tokens]
  | encode =>
    obtain rfl := hpart (by simp [hk])
    simp [Loop.work, hk, singles_flatten, tokens_frame]
  | split =>
    obtain rfl := hpart (by simp [hk])
    simp [Loop.work, hk, singles_flatten, hf]
  | pack | chunk | relay =>
    obtain rfl := hpart (by simp [hk])
    simp [Loop.work, hk]

theorem put_pair {i : Nat} (hs : step L s (.put i) = some t) (j : Nat) : pair t j = pair s j := by
  obtain ⟨x, rest, hh, -, -, rfl⟩ := put_spec hs
  by_cases hj : j = i
  · subst hj
    simp [pair, hh]
  · simp [pair, hj]

/-- No step loses a token, makes one up or has one overtake another. -/
theorem content_step (hf : ∀ i a, f (L.pass i a) = f a) (h : Sound L s)
    (hs : step L s e = some t) : (content L t).map f = (content L s).map f := by
  cases e with
  | read k =>
    obtain ⟨m, -, hsrc, he, heq⟩ := read_spec hs
    have hpart : t.part = s.part := by rw [heq]
    have hpair : pair t 0 = pair s 0 ++ frame (L.header m) m := by
      rw [heq]
      simp [pair, he, singles_flatten]
    refine before_congr (Nat.succ_le_succ (Nat.zero_le L.last)) ?_ ?_
    · simp only [before, hpart, hpair, tokens_append, tokens_frame, hsrc, List.append_assoc]
    · intro i hi _
      refine ⟨by rw [hpart], ?_⟩
      rw [heq]
      simp [pair, show i ≠ 0 by omega]
  | put i =>
    obtain ⟨x, rest, -, -, -, heq⟩ := put_spec hs
    rw [content, content, before_same (by rw [heq]) fun j _ => ⟨by rw [heq], put_pair hs j⟩]
  | take i k =>
    have ht := take_spec hs
    have hi := ht.inside
    have hwork := work_map hf (fun hk => h.idle (i + 1) hi hk) ((s.buf i).take k).flatten
    rw [← ht.hand, ← ht.part, List.map_append, List.map_append] at hwork
    have hfront : before t i = before s i := by
      refine before_same ht.source fun j hj => ⟨ht.part_ne (j + 1) (by omega), ?_⟩
      exact ht.pair_ne (by omega) (by omega)
    refine before_congr (show i + 2 ≤ L.last + 1 by omega) ?_ ?_
    · simp only [before, hfront, ht.pair_from, ht.pair_to, ht.part_ne (i + 1 + 1) (by omega),
        tokens_append, List.map_append, List.append_assoc]
      rw [← List.append_assoc (List.map f (tokens (t.hand (i + 1)).flatten)), hwork]
      simp only [List.append_assoc]
    · intro j hj _
      exact ⟨ht.part_ne (j + 1) (by omega), ht.pair_ne (by omega) (by omega)⟩
  | recv =>
    obtain ⟨x, rest, hb, -, heq⟩ := recv_spec hs
    have hfront : before t L.last = before s L.last := by
      refine before_same (by rw [heq]) fun j hj => ?_
      rw [heq]
      simp [pair, show j ≠ L.last by omega]
    have hpart : t.part (L.last + 1) = s.part (L.last + 1) ++ x := by
      rw [heq]
      exact Function.update_self _ _ _
    have hpair : pair s L.last = x ++ pair t L.last := by
      rw [heq]
      simp [pair, hb]
    simp only [content, before, hfront, hpart, hpair, tokens_append, List.append_assoc]

theorem Blocked.received (h : Blocked L s) (hsound : Sound L s) (h0 : s.hand 0 = []) :
    content L s = tokens (s.part (L.last + 1)) := by
  obtain ⟨hsource, hempty⟩ := h.empty hsound h0
  have hnone : ∀ n ≤ L.last, before s n = [] := by
    intro n
    induction n with
    | zero => exact fun _ => hsource
    | succ n ih =>
      intro hn
      rw [before, (hempty (n + 1) hn).2, (hempty n (by omega)).1, ih (by omega)]
      rfl
  rw [content, before, (hempty L.last (Nat.le_refl _)).1, hnone L.last (Nat.le_refl _)]
  exact List.append_nil _

end Content

section Ahead

theorem length_le_flatten {xs : List (List (Cell α))} (h : ∀ x ∈ xs, x ≠ []) :
    xs.length ≤ xs.flatten.length := by
  induction xs with
  | nil => exact Nat.le_refl 0
  | cons x xs ih =>
    have hpos := List.length_pos_of_ne_nil (h x List.mem_cons_self)
    have hrest := ih fun y hy => h y (List.mem_cons_of_mem x hy)
    rw [List.flatten_cons, List.length_append, List.length_cons]
    omega

/-- The tokens that task `i` has still to put, those it is given yet included. -/
def ahead (s : State α) (i : Nat) : List α := tokens (s.hand i).flatten ++ before s i

theorem before_split (s : State α) {i n : Nat} (hi : i < n) :
    ∃ front, before s n = front ++ (tokens (s.buf i).flatten ++ ahead s i) := by
  induction n, hi using Nat.le_induction with
  | base =>
    refine ⟨tokens (s.part (i + 1)), ?_⟩
    simp only [before, pair, ahead, List.flatten_append, tokens_append, List.append_assoc]
  | succ n _ ih =>
    obtain ⟨front, hfront⟩ := ih
    refine ⟨tokens (s.part (n + 1)) ++ tokens (pair s n) ++ front, ?_⟩
    rw [before, hfront]
    simp only [List.append_assoc]

/-- A price of each token that pays for the frames of all messages. -/
structure Pays (L : Loop α) (cost : α → Nat) : Prop where
  token : ∀ a, 1 ≤ cost a
  message : ∀ m, L.Message m → L.header m + m.length ≤ load cost m

/-- What is on its way to a reader of frames is paid for by its tokens. -/
theorem flow_cost {cost : α → Nat} (hp : Pays L cost) (h : Sound L s) {i : Nat} (hi : i ≤ L.last)
    (hr : L.Reads i) {g l : List (Cell α)} (hl : flow L s i = g ++ l) :
    l.length ≤ load cost (tokens l) := by
  obtain ⟨ms, hms, hall⟩ := h.whole i hi hr
  rw [hl, ← List.append_assoc] at hall
  exact frames_cost hp.token (fun m hm => ⟨(hms m hm).1, hp.message m (hms m hm)⟩) hall

theorem ahead_ne_nil {cost : α → Nat} (hp : Pays L cost) (h : Sound L s) (hr : L.Reads 0)
    (h0 : s.hand 0 ≠ []) : ahead s 0 ≠ [] := by
  have hk : L.kind 0 ≠ .chunk := by
    rw [L.first]
    exact nofun
  have hflow : flow L s 0 = (s.buf 0).flatten ++ (s.hand 0).flatten := by
    rw [flow_eq hk, pair, List.flatten_append]
  have hle := flow_cost hp h (Nat.zero_le _) hr hflow
  obtain ⟨x, rest, hx⟩ := List.exists_cons_of_ne_nil h0
  have hitem := item_ne_nil (h.items 0 (Nat.zero_le _) x (by simp [hx]))
  have hlen := List.length_pos_of_ne_nil hitem
  intro hn
  rw [(List.append_eq_nil_iff.mp hn).1, hx, List.flatten_cons, List.length_append, load_nil] at hle
  omega

theorem Full.cells (h : Full L s) (hsound : Sound L s) {i : Nat} (hi : i ≤ L.last) :
    L.cap i + 1 ≤ (pair s i).length := by
  obtain ⟨hhand, hbuf⟩ := h i hi
  have hlen : (s.buf i ++ s.hand i).length ≤ (pair s i).length :=
    length_le_flatten fun x hx => item_ne_nil (hsound.items i hi x hx)
  have hpos := List.length_pos_of_ne_nil hhand
  rw [List.length_append] at hlen
  omega

theorem Full.tokens (h : Full L s) (hsound : Sound L s) {i : Nat} (hi : i ≤ L.last)
    (hk : L.kind i ≠ .encode) (hc : L.kind i ≠ .chunk) :
    L.cap i + 1 ≤ (tokens (pair s i)).length := by
  have hplain : plain (Chain.tokens (pair s i)) = pair s i := by
    apply plain_tokens
    intro x hx
    have hitem := hsound.items i hi x hx
    cases hkind : L.kind i with
    | encode => exact absurd hkind hk
    | chunk => exact absurd hkind hc
    | split =>
      rw [hkind] at hitem
      exact hitem.elim fun a ha => ⟨[a], ha⟩
    | decode | pack | relay =>
      rw [hkind] at hitem
      exact hitem.elim fun m hm => ⟨m, hm.2⟩
  have hlen := congrArg List.length hplain
  rw [length_plain] at hlen
  rw [hlen]
  exact h.cells hsound hi

end Ahead

section Marked
variable {G : Nat → α → Prop}

/-- What becomes of a token that task `i` takes. -/
def Loop.turn (L : Loop α) (i : Nat) (a : α) : α := if L.kind i = .split then L.pass i a else a

/-- What is true of every token by the task it has got to. -/
structure Marked (G : Nat → α → Prop) (s : State α) : Prop where
  source : ∀ a ∈ s.source, G 0 a
  pair : ∀ i, ∀ a ∈ tokens (pair s i), G i a
  part : ∀ i, ∀ a ∈ tokens (s.part i), G i a

theorem mem_work {i : Nat} {part xs : List (Cell α)} {a : α}
    (h : a ∈ tokens (L.work i part xs).1.flatten ∨ a ∈ tokens (L.work i part xs).2) :
    a ∈ tokens part ∨ ∃ b ∈ tokens xs, a = L.turn i b := by
  cases hk : L.kind i with
  | decode =>
    simp only [Loop.work, hk] at h
    rw [← List.mem_append, ← decode_tokens] at h
    exact (List.mem_append.mp h).imp id fun hx => ⟨a, hx, by simp [Loop.turn, hk]⟩
  | encode =>
    simp only [Loop.work, hk, singles_flatten, tokens_frame] at h
    exact h.symm.imp id fun hx => ⟨a, hx, by simp [Loop.turn, hk]⟩
  | split =>
    simp only [Loop.work, hk, singles_flatten, tokens_plain] at h
    rcases h with hx | hx
    · obtain ⟨b, hb, rfl⟩ := List.mem_map.mp hx
      exact .inr ⟨b, hb, by simp [Loop.turn, hk]⟩
    · exact .inl hx
  | pack | chunk | relay =>
    simp only [Loop.work, hk, List.flatten_cons, List.flatten_nil, List.append_nil] at h
    exact h.symm.imp id fun hx => ⟨a, hx, by simp [Loop.turn, hk]⟩

theorem marked_take (hG : ∀ i a, G i a → G (i + 1) (L.turn (i + 1) a)) (h : Marked G s) {i : Nat}
    {xs : List (List (Cell α))} (ht : Takes L s i xs t) : Marked G t := by
  have htaken : ∀ a ∈ tokens xs.flatten, G i a := by
    intro a ha
    refine h.pair i a ?_
    rw [ht.pair_from, tokens_append]
    exact List.mem_append_left _ ha
  have hmade : ∀ a, a ∈ tokens (t.hand (i + 1)).flatten ∨ a ∈ tokens (t.part (i + 1)) →
      G (i + 1) a := by
    intro a ha
    rw [ht.hand, ht.part] at ha
    rcases mem_work ha with hp | ⟨b, hb, rfl⟩
    · exact h.part (i + 1) a hp
    · exact hG i b (htaken b hb)
  constructor
  · rw [ht.source]
    exact h.source
  · intro j a ha
    by_cases hj : j = i
    · subst hj
      refine h.pair j a ?_
      rw [ht.pair_from, tokens_append]
      exact List.mem_append_right _ ha
    · by_cases hj' : j = i + 1
      · subst hj'
        rw [ht.pair_to, tokens_append] at ha
        exact (List.mem_append.mp ha).elim (h.pair _ a) fun ha => hmade a (.inl ha)
      · rw [ht.pair_ne hj hj'] at ha
        exact h.pair j a ha
  · intro j a ha
    by_cases hj : j = i + 1
    · subst hj
      exact hmade a (.inr ha)
    · rw [ht.part_ne j hj] at ha
      exact h.part j a ha

theorem marked_step (hG : ∀ i a, G i a → G (i + 1) (L.turn (i + 1) a))
    (hlast : ∀ a, G L.last a → G (L.last + 1) a) (h : Marked G s) (hs : step L s e = some t) :
    Marked G t := by
  cases e with
  | read k =>
    obtain ⟨m, -, hsrc, he, heq⟩ := read_spec hs
    have hpart : t.part = s.part := by rw [heq]
    constructor
    · exact fun a ha => h.source a (by rw [hsrc]; exact List.mem_append_right m ha)
    · intro i a ha
      by_cases hi : i = 0
      · subst hi
        rw [heq] at ha
        simp only [pair, Function.update_self, List.flatten_append, singles_flatten,
          tokens_append, tokens_frame] at ha
        rcases List.mem_append.mp ha with ha | ha
        · refine h.pair 0 a ?_
          rwa [pair, he, List.append_nil]
        · exact h.source a (by rw [hsrc]; exact List.mem_append_left _ ha)
      · rw [heq] at ha
        simp only [pair, Function.update_of_ne hi] at ha
        exact h.pair i a ha
    · rw [hpart]
      exact h.part
  | put i =>
    have hpair := put_pair hs
    obtain ⟨x, rest, -, -, -, rfl⟩ := put_spec hs
    exact ⟨h.source, fun j a ha => h.pair j a (hpair j ▸ ha), h.part⟩
  | take i k => exact marked_take hG h (take_spec hs)
  | recv =>
    obtain ⟨x, rest, hb, -, rfl⟩ := recv_spec hs
    have hfront : pair s L.last = x ++ (rest ++ s.hand L.last).flatten := by
      rw [pair, hb, List.cons_append, List.flatten_cons]
    constructor
    · exact h.source
    · intro i a ha
      refine h.pair i a ?_
      by_cases hi : i = L.last
      · subst hi
        simp only [pair, Function.update_self] at ha
        rw [hfront, tokens_append]
        exact List.mem_append_right _ ha
      · simpa only [pair, Function.update_of_ne hi] using ha
    · intro i a ha
      by_cases hi : i = L.last + 1
      · subst hi
        simp only [Function.update_self, tokens_append] at ha
        rcases List.mem_append.mp ha with ha | ha
        · exact h.part _ a ha
        · refine hlast a (h.pair L.last a ?_)
          rw [hfront, tokens_append]
          exact List.mem_append_left _ ha
      · simp only [Function.update_of_ne hi] at ha
        exact h.part i a ha

end Marked

end ShellProxy.Chain
