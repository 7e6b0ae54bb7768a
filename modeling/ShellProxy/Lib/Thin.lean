import ShellProxy.Lib.Feeding

/-! The runs of a loop in which every task moves one item at a time. They fill it with the fewest
tokens, as every message has a frame of its own. -/
namespace ShellProxy.Chain
open Machine
variable {α : Type*} {L : Loop α} {s t : State α} {e : Ev}

/-- The loop in which every task moves one item at a time. -/
def Loop.thin (L : Loop α) : Loop α := { L with
  most := fun _ => 1
  size := 1
  most_pos := fun _ => Nat.one_pos
  single := fun _ _ => rfl
  small := fun _ _ => Nat.le_refl 1 }

theorem thin_step (hs : step L.thin s e = some t) : step L s e = some t := by
  cases e with
  | read k =>
    obtain ⟨⟨he, hk, hle, hmost, hap⟩, hs⟩ := Option.ite_none_right_eq_some.mp hs
    have hmost' : k ≤ L.most 0 := Nat.le_trans hmost (L.most_pos 0)
    exact (if_pos ⟨he, hk, hle, hmost', hap⟩).trans hs
  | put i => exact hs
  | take i k =>
    obtain ⟨⟨hi, he, hk, hle, hmost, hap⟩, hs⟩ := Option.ite_none_right_eq_some.mp hs
    have hmost' : k ≤ L.most (i + 1) := Nat.le_trans hmost (L.most_pos (i + 1))
    exact (if_pos ⟨hi, he, hk, hle, hmost', hap⟩).trans hs
  | recv => exact hs

theorem thin_path {ok : State α → Ev → Prop} {es : List Ev} (h : Path (step L.thin) ok s es t) :
    Path (step L) Any s es t := by
  induction h with
  | refl => exact .refl
  | tail _ _ hs ih => exact ih.tail trivial (thin_step hs)

theorem thin_message {m : List α} (hm : L.thin.Message m) : ∃ a, m = [a] := by
  have hpos := List.length_pos_of_ne_nil hm.1
  have hle : m.length ≤ 1 := hm.2.1
  exact List.length_eq_one_iff.mp (by omega)

theorem thin_grows {grow : Nat} (hg : Grows L grow) : Grows L.thin grow := by
  intro m hm
  obtain ⟨a, rfl⟩ := thin_message hm
  have hsmall := L.small 0 (.inl rfl)
  have hmost := L.most_pos 0
  exact hg [a] ⟨hm.1, by rw [List.length_singleton]; omega, hm.2.2⟩

theorem frame_single {h : Nat} {a : α} {l r : List (Cell α)} (hl : l ++ r = frame h [a]) :
    tokens l = [] ∨ r = [] := by
  rw [show [a] = [] ++ [a] from rfl, frame_concat] at hl
  rcases List.append_eq_append_iff.mp hl with ⟨x, hx, -⟩ | ⟨x, rfl, hx⟩
  · have hzero := congrArg tokens hx
    rw [tokens_append, tokens_plain, tokens_replicate, tokens_append] at hzero
    exact .inl (List.append_eq_nil_iff.mp hzero.symm).1
  · cases x with
    | nil =>
      left
      rw [List.append_nil, tokens_append, tokens_plain, tokens_replicate]
      rfl
    | cons c x =>
      have hlen := congrArg List.length hx
      simp only [List.length_cons, List.length_append, List.length_nil] at hlen
      exact .inr (List.eq_nil_of_length_eq_zero (by omega))

/-- What is in front of a cut is no shorter than its tokens cost. -/
theorem frames_paid {header : List α → Nat} {cost : α → Nat} (hc : ∀ a, cost a = header [a] + 1)
    {l r : List (Cell α)} {ms : List (List α)} (hms : ∀ m ∈ ms, ∃ a, m = [a])
    (h : l ++ r = frames header ms) : load cost (tokens l) ≤ l.length := by
  induction ms generalizing l with
  | nil =>
    obtain ⟨rfl, -⟩ := List.append_eq_nil_iff.mp h
    exact Nat.le_refl 0
  | cons m ms ih =>
    obtain ⟨a, rfl⟩ := hms m List.mem_cons_self
    have hrest := fun n hn => hms n (List.mem_cons_of_mem [a] hn)
    have hlen := length_frame (header [a]) (List.cons_ne_nil a [])
    have htok := tokens_frame (header [a]) [a]
    have hprice := hc a
    rw [frames_cons] at h
    rcases List.append_eq_append_iff.mp h with ⟨x, hx, -⟩ | ⟨x, rfl, hx⟩
    · rcases frame_single hx.symm with hn | rfl
      · rw [hn]
        exact Nat.zero_le _
      · rw [List.append_nil] at hx
        rw [← hx, htok, hlen, load_cons, load_nil, List.length_singleton]
        omega
    · have hle := ih hrest hx.symm
      rw [tokens_append, htok, load_append, load_cons, load_nil, List.length_append, hlen,
        List.length_singleton]
      omega

theorem Sound.part_none (h : Sound L.thin s) {i : Nat} (hi : i < L.last) :
    tokens (s.part (i + 1)) = [] := by
  rcases h.part_cut hi with hn | ⟨m, rest, hm, hne, hcut⟩
  · rw [hn]
    rfl
  · obtain ⟨a, rfl⟩ := thin_message hm
    exact (frame_single hcut).resolve_right hne

theorem thin_worth (i : Nat) : L.thin.worth i = 1 := by
  unfold Loop.worth
  split <;> rfl

structure Single (L : Loop α) (s : State α) : Prop where
  hand : ∀ i ≤ L.last, (tokens (s.hand i).flatten).length ≤ 1
  chunk : ∀ i ≤ L.last, L.kind i = .chunk → (s.hand i).flatten.length ≤ 1
  closed : ∀ i ≤ L.last, s.hand i ≠ [] → s.part i = []

theorem single_init (L : Loop α) (l : List α) : Single L { source := l } where
  hand := by simp
  chunk := by simp
  closed := by simp

theorem thin_cell {k : Kind} {x : List (Cell α)} (h : L.thin.Item k x)
    (hk : k = .encode ∨ k = .chunk) : ∃ c, x = [c] := by
  rcases hk with rfl | rfl
  · exact h
  · have hpos := List.length_pos_of_ne_nil h.1
    have hle : x.length ≤ 1 := h.2
    exact List.length_eq_one_iff.mp (by omega)

theorem Takes.one {i : Nat} {xs : List (List (Cell α))} (h : Takes L.thin s i xs t) :
    ∃ x, xs = [x] := by
  have hpos := List.length_pos_of_ne_nil h.some
  have hle : xs.length ≤ 1 := h.most
  exact List.length_eq_one_iff.mp (by omega)

theorem Takes.one_cell {i : Nat} {xs : List (List (Cell α))} (h : Takes L.thin s i xs t)
    (hsound : Sound L.thin s) (hk : L.kind i = .encode ∨ L.kind i = .chunk) :
    ∃ c, xs.flatten = [c] := by
  obtain ⟨x, rfl⟩ := h.one
  have hitem := h.item hsound List.mem_cons_self
  rw [List.flatten_cons, List.flatten_nil, List.append_nil]
  exact thin_cell hitem hk

theorem Takes.closed {i : Nat} {xs : List (List (Cell α))} (h : Takes L.thin s i xs t)
    (hsound : Sound L.thin s) (hne : t.hand (i + 1) ≠ []) : t.part (i + 1) = [] := by
  by_cases hk : L.kind (i + 1) = .decode
  · have hl := L.links i h.inside
    rw [hk] at hl
    obtain ⟨c, hc⟩ := h.one_cell hsound (takes_decode hl)
    have hwork : L.thin.work (i + 1) (s.part (i + 1)) xs.flatten =
        decode (s.part (i + 1)) [c] := by
      rw [Loop.work, show L.thin.kind (i + 1) = .decode from hk, hc]
    rw [h.hand, hwork, decode] at hne
    rw [h.part, hwork, decode]
    by_cases hlast : c.last = true
    · rw [if_pos hlast]
      rfl
    · rw [if_neg hlast] at hne
      exact absurd rfl hne
  · rw [h.part_same hk]
    exact hsound.idle (i + 1) h.inside hk

theorem single_take (hsound : Sound L.thin s) (h : Single L s) {i : Nat}
    {xs : List (List (Cell α))} (ht : Takes L.thin s i xs t) : Single L t := by
  have hi : i < L.last := ht.inside
  have hother : ∀ j, j ≠ i + 1 → t.hand j = s.hand j := ht.hand_ne
  constructor
  · intro j hj
    by_cases hji : j = i + 1
    · subst hji
      have hwork := congrArg List.length (work_map (f := fun _ => ()) (fun _ _ => rfl)
        (fun hk => hsound.idle (i + 1) ht.inside hk) xs.flatten)
      rw [← ht.hand, ← ht.part, hsound.part_none hi, List.nil_append, List.length_map,
        List.length_map, List.length_append] at hwork
      have htaken := items_worth fun x hx => ht.item hsound hx
      obtain ⟨x, rfl⟩ := ht.one
      rw [thin_worth, List.length_singleton] at htaken
      omega
    · rw [hother j hji]
      exact h.hand j hj
  · intro j hj hk
    by_cases hji : j = i + 1
    · subst hji
      have hl := L.links i hi
      rw [hk] at hl
      obtain ⟨c, hc⟩ := ht.one_cell hsound (.inl (takes_chunk hl))
      rw [ht.hand, Loop.work, show L.thin.kind (i + 1) = .chunk from hk, hc]
      exact Nat.le_refl 1
    · rw [hother j hji]
      exact h.chunk j hj hk
  · intro j hj hne
    by_cases hji : j = i + 1
    · subst hji
      exact ht.closed hsound hne
    · rw [ht.part_ne j hji]
      rw [hother j hji] at hne
      exact h.closed j hj hne

theorem single_step (hsound : Sound L.thin s) (h : Single L s) (hs : step L.thin s e = some t) :
    Single L t := by
  cases e with
  | read k =>
    obtain ⟨m, hm, -, he, heq⟩ := read_spec hs
    obtain ⟨a, rfl⟩ := thin_message hm
    have hpart : t.part = s.part := by rw [heq]
    have hhand : t.hand 0 = Loop.singles (frame (L.thin.header [a]) [a]) := by
      rw [heq]
      exact Function.update_self 0 _ s.hand
    have hother : ∀ i, i ≠ 0 → t.hand i = s.hand i := by
      intro i hi
      rw [heq]
      exact Function.update_of_ne hi _ _
    constructor
    · intro i hi
      by_cases h0 : i = 0
      · rw [h0, hhand, singles_flatten, tokens_frame]
        exact Nat.le_refl 1
      · rw [hother i h0]
        exact h.hand i hi
    · intro i hi hk
      by_cases h0 : i = 0
      · rw [h0, L.first] at hk
        cases hk
      · rw [hother i h0]
        exact h.chunk i hi hk
    · intro i hi hne
      rw [hpart]
      by_cases h0 : i = 0
      · rw [h0]
        refine hsound.idle 0 (Nat.zero_le _) ?_
        rw [L.thin.first]
        exact nofun
      · rw [hother i h0] at hne
        exact h.closed i hi hne
  | put i =>
    obtain ⟨x, rest, hh, -, -, rfl⟩ := put_spec hs
    have hcut : ∀ j, Function.update s.hand i rest j = s.hand j ∨
        s.hand j = x :: Function.update s.hand i rest j := by
      intro j
      by_cases hj : j = i
      · subst hj
        rw [Function.update_self]
        exact .inr hh
      · rw [Function.update_of_ne hj]
        exact .inl rfl
    constructor
    · intro j hj
      have hle := h.hand j hj
      rcases hcut j with hc | hc
      · simpa only [hc] using hle
      · rw [hc, List.flatten_cons, tokens_append, List.length_append] at hle
        exact Nat.le_trans (Nat.le_add_left _ _) hle
    · intro j hj hk
      have hle := h.chunk j hj hk
      rcases hcut j with hc | hc
      · simpa only [hc] using hle
      · rw [hc, List.flatten_cons, List.length_append] at hle
        exact Nat.le_trans (Nat.le_add_left _ _) hle
    · intro j hj hne
      refine h.closed j hj ?_
      rcases hcut j with hc | hc
      · rwa [← hc]
      · rw [hc]
        exact List.cons_ne_nil _ _
  | take i k => exact single_take hsound h (take_spec hs)
  | recv =>
    obtain ⟨x, rest, -, -, rfl⟩ := recv_spec hs
    refine ⟨h.hand, h.chunk, fun i hi hne => ?_⟩
    have hi' : i ≠ L.thin.last + 1 := by
      have hle : i ≤ L.thin.last := hi
      omega
    simp only [Function.update_of_ne hi']
    exact h.closed i hi hne

/-- The end of a thin run in which task `0` has received nothing. -/
structure Ended (L : Loop α) (s : State α) : Prop where
  sound : Sound L.thin s
  single : Single L s
  nothing : s.part (L.last + 1) = []
  still : ∀ e, Feeding s e → step L.thin s e = none

theorem exists_ended {grow : Nat} (hg : Grows L grow) (h1 : 1 ≤ grow) (l : List α) :
    ∃ es t, Path (step L) Any { source := l } es t ∧ Ended L t := by
  obtain ⟨es, t, hpath, ht, hend⟩ := exists_end (thin_grows hg) h1 l
  have hsingle := hpath.invariant (I := fun s => Sound L.thin s ∧ Single L s)
    (fun s e t h _ hs => ⟨sound_step h.1 hs, single_step h.1 h.2 hs⟩)
    ⟨sound_init _ l, single_init L l⟩
  exact ⟨es, t, thin_path hpath, ht.sound, hsingle.2, ht.nothing, hend⟩

namespace Ended

theorem full (h : Ended L s) (h0 : s.hand 0 ≠ []) : Full L s :=
  full_of_stuck (L := L.thin) h.sound (fun i => h.still (.put i) nofun)
    (fun i => h.still (.take i 1) nofun) h0

theorem hand_empty (h : Ended L s) {i : Nat} (hi : i ≤ L.last) (hb : s.buf i = []) :
    s.hand i = [] :=
  Chain.hand_empty (h.still (.put i) nofun) hi hb

theorem buf_empty (h : Ended L s) {i : Nat} (hi : i < L.last) (he : s.hand (i + 1) = []) :
    s.buf i = [] := by
  by_contra hne
  exact hand_full h.sound (h.still _ nofun) hi hne he

theorem part_empty (h : Ended L s) {i : Nat} (hi : i ≤ L.last) : s.part (i + 1) = [] := by
  rcases Nat.eq_or_lt_of_le hi with rfl | hlt
  · exact h.nothing
  by_cases hb : s.buf i = []
  swap
  · exact h.single.closed (i + 1) hlt (hand_full h.sound (h.still _ nofun) hlt hb)
  have hpair : pair s i = [] := by
    rw [pair, hb, h.hand_empty hi hb]
    rfl
  refine h.sound.part_empty hlt ?_
  by_cases hc : L.thin.kind i = .chunk
  · have hpos := (chunk_front (L := L.thin) hi hc).1
    have hfront : s.buf (i - 1) = [] := by
      refine h.buf_empty (by omega) ?_
      rw [Nat.sub_add_cancel hpos, h.hand_empty hi hb]
    rw [flow_chunk hc, hpair, pair, hfront, h.hand_empty (by omega) hfront]
    rfl
  · rw [flow_eq hc, hpair]

/-- What is in front of a cut on the way to a reader of frames pays for its tokens. -/
theorem paid {cost : α → Nat} (hc : ∀ a, cost a = L.header [a] + 1) (h : Ended L s) {i : Nat}
    (hi : i ≤ L.last) (hr : L.Reads i) {l r : List (Cell α)} (hl : flow L s i = l ++ r) :
    load cost (tokens l) ≤ l.length := by
  obtain ⟨ms, hms, hall⟩ := h.sound.whole i hi hr
  have hflow : flow L.thin s i = l ++ r := hl
  rw [h.part_empty hi, List.nil_append, hflow] at hall
  exact frames_paid hc (fun m hm => thin_message (hms m hm)) hall

theorem pair_le (h : Ended L s) {i : Nat} (hi : i ≤ L.last) :
    (tokens (pair s i)).length ≤ L.cap i + 1 := by
  have hbuf := items_worth fun x hx => h.sound.items i hi x (List.mem_append_left _ hx)
  have hfits : (s.buf i).length ≤ L.cap i := h.sound.fits i
  have hhand := h.single.hand i hi
  rw [thin_worth, Nat.mul_one] at hbuf
  rw [pair, List.flatten_append, tokens_append, List.length_append]
  omega

theorem buf_cells (h : Ended L s) {i : Nat} (hi : i ≤ L.last)
    (hk : L.kind i = .encode ∨ L.kind i = .chunk) : (s.buf i).flatten.length ≤ L.cap i := by
  have hfits : (s.buf i).length ≤ L.cap i := h.sound.fits i
  refine Nat.le_trans (Nat.le_of_eq (length_singles fun x hx => ?_)) hfits
  exact thin_cell (h.sound.items i hi x (List.mem_append_left _ hx)) hk

end Ended

end ShellProxy.Chain
