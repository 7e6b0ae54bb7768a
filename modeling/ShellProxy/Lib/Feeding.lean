import ShellProxy.Lib.Blocking
import Mathlib.Tactic.Linarith
import Mathlib.Data.Nat.Find

/-! Every run of a loop of tasks comes to an end, and a run in which task `0` receives nothing ends
stuck, when its source holds more than fits between the two ends of the loop. -/
namespace ShellProxy.Chain
open Machine
variable {α : Type*} {L : Loop α} {s t : State α} {e : Ev}

section Measure

theorem sum_two {S : Finset Nat} {p q : Nat} (hp : p ∈ S) (hq : q ∈ S) (hne : p ≠ q)
    (F G : Nat → Nat) (h : ∀ r, r ≠ p → r ≠ q → G r = F r) :
    (∑ r ∈ S, G r) + F p + F q = (∑ r ∈ S, F r) + G p + G q := by
  have hq' : q ∈ S.erase p := Finset.mem_erase.mpr ⟨hne.symm, hq⟩
  have hrest : ∑ r ∈ (S.erase p).erase q, G r = ∑ r ∈ (S.erase p).erase q, F r := by
    apply Finset.sum_congr rfl
    intro r hr
    rw [Finset.mem_erase, Finset.mem_erase] at hr
    exact h r hr.2.1 hr.1
  rw [← Finset.add_sum_erase S G hp, ← Finset.add_sum_erase _ G hq', hrest,
    ← Finset.add_sum_erase S F hp, ← Finset.add_sum_erase _ F hq']
  omega

theorem sum_one {S : Finset Nat} {p : Nat} (hp : p ∈ S) (F G : Nat → Nat)
    (h : ∀ r, r ≠ p → G r = F r) : (∑ r ∈ S, G r) + F p = (∑ r ∈ S, F r) + G p := by
  have hrest : ∑ r ∈ S.erase p, G r = ∑ r ∈ S.erase p, F r :=
    Finset.sum_congr rfl fun r hr => h r (Finset.ne_of_mem_erase hr)
  rw [← Finset.add_sum_erase S G hp, hrest, ← Finset.add_sum_erase S F hp]
  omega

theorem decode_length (part cs : List (Cell α)) :
    (decode part cs).1.flatten.length + (decode part cs).2.length ≤ part.length + cs.length := by
  induction cs generalizing part with
  | nil => simp [decode]
  | cons c cs ih =>
    rw [decode]
    split
    · have hrest := ih []
      have hmsg := length_tokens (part ++ [c])
      simp only [List.flatten_cons, List.length_append, length_plain, List.length_cons,
        List.length_nil] at hrest hmsg ⊢
      omega
    · have hrest := ih (part ++ [c])
      simp only [List.length_append, List.length_cons, List.length_nil] at hrest ⊢
      omega

/-- No frame is longer than `grow` for each of its tokens. -/
def Grows (L : Loop α) (grow : Nat) : Prop :=
  ∀ m, L.Message m → L.header m + m.length ≤ grow * m.length

theorem Takes.work_length {grow i : Nat} (hg : Grows L grow) {xs : List (List (Cell α))}
    (h : Takes L s i xs t) (hsound : Sound L s) :
    (t.hand (i + 1)).flatten.length + (grow + 1) * (t.part (i + 1)).length ≤
      (grow + 1) * (s.part (i + 1)).length + (grow + 1) * xs.flatten.length := by
  have hshort : ∀ a b c d : Nat, a + b ≤ c + d →
      a + (grow + 1) * b ≤ (grow + 1) * c + (grow + 1) * d := by
    intro a b c d hle
    have hmul := Nat.mul_le_mul_left grow hle
    rw [Nat.mul_add, Nat.mul_add] at hmul
    simp only [Nat.add_mul, Nat.one_mul]
    omega
  cases hk : L.kind (i + 1) with
  | encode =>
    obtain ⟨m, hm, rfl⟩ := h.message hsound (.inl hk)
    have hlen := hg m hm
    have hframe := length_frame (L.header m) hm.1
    rw [h.part_same (by simp [hk]), h.hand]
    simp only [Loop.work, hk, List.flatten_cons, List.flatten_nil, List.append_nil, tokens_plain,
      singles_flatten, length_plain, hframe]
    rw [Nat.add_mul, Nat.add_mul _ _ m.length]
    omega
  | decode =>
    have hlen := decode_length (s.part (i + 1)) xs.flatten
    rw [h.hand, h.part]
    simp only [Loop.work, hk]
    exact hshort _ _ _ _ hlen
  | split =>
    have hlen := length_tokens xs.flatten
    rw [h.hand, h.part]
    simp only [Loop.work, hk, singles_flatten, length_plain, List.length_map]
    exact hshort _ _ _ _ (by omega)
  | pack | chunk | relay =>
    rw [h.hand, h.part]
    simp only [Loop.work, hk, List.flatten_cons, List.flatten_nil, List.append_nil]
    exact hshort _ _ _ _ (by omega)

/-- What lies between task `i` and the next one weighs `W` times as much before each move. -/
def mass (L : Loop α) (W : Nat) (s : State α) (i : Nat) : Nat :=
  W ^ (3 * (L.last - i)) * (W * W * (s.hand i).flatten.length + W * (s.buf i).flatten.length +
    (s.part (i + 1)).length)

def measure (L : Loop α) (W : Nat) (s : State α) : Nat :=
  W ^ (3 * L.last) * (W * W * W * s.source.length) +
    ∑ i ∈ Finset.range (L.last + 1), mass L W s i

theorem measure_lt {W : Nat} {i : Nat} (hi : i ≤ L.last) (hsource : t.source = s.source)
    (hne : ∀ j, j ≠ i → mass L W t j = mass L W s j) (hlt : mass L W t i < mass L W s i) :
    measure L W t < measure L W s := by
  have hsum := sum_one (Finset.mem_range.mpr (show i < L.last + 1 by omega)) (mass L W s)
    (mass L W t) hne
  rw [measure, measure, hsource]
  omega

theorem measure_read {grow k : Nat} (hg : Grows L grow) (hs : step L s (.read k) = some t) :
    measure L (grow + 1) t < measure L (grow + 1) s := by
  obtain ⟨m, hm, hsrc, he, heq⟩ := read_spec hs
  have hlen := hg m hm
  have hpos := List.length_pos_of_ne_nil hm.1
  have hframe := length_frame (L.header m) hm.1
  have hmass : mass L (grow + 1) t 0 = mass L (grow + 1) s 0 +
      (grow + 1) ^ (3 * L.last) * ((grow + 1) * (grow + 1) * (L.header m + m.length)) := by
    rw [heq]
    simp only [mass, he, Function.update_self, singles_flatten, hframe, Nat.sub_zero,
      List.flatten_nil, List.length_nil]
    ring
  have hne : ∀ j, j ≠ 0 → mass L (grow + 1) t j = mass L (grow + 1) s j := by
    intro j hj
    rw [heq]
    simp only [mass, Function.update_of_ne hj]
  have hsum := sum_one (Finset.mem_range.mpr (show 0 < L.last + 1 by omega))
    (mass L (grow + 1) s) (mass L (grow + 1) t) hne
  have hless : L.header m + m.length < (grow + 1) * m.length := by
    rw [Nat.add_mul]
    omega
  have hmul := Nat.mul_lt_mul_of_pos_left hless
    (show 0 < (grow + 1) ^ (3 * L.last) * ((grow + 1) * (grow + 1)) by positivity)
  have hsplit : (grow + 1) ^ (3 * L.last) * ((grow + 1) * (grow + 1) * (grow + 1) *
      s.source.length) = (grow + 1) ^ (3 * L.last) * ((grow + 1) * (grow + 1)) *
        ((grow + 1) * m.length) + (grow + 1) ^ (3 * L.last) * ((grow + 1) * (grow + 1) *
          (grow + 1) * t.source.length) := by
    rw [hsrc, List.length_append]
    ring
  have hassoc : (grow + 1) ^ (3 * L.last) * ((grow + 1) * (grow + 1) * (L.header m + m.length)) =
      (grow + 1) ^ (3 * L.last) * ((grow + 1) * (grow + 1)) * (L.header m + m.length) := by
    ring
  rw [measure, measure, hsplit]
  omega

theorem measure_put {W i : Nat} (hW : 2 ≤ W) (h : Sound L s) (hs : step L s (.put i) = some t) :
    measure L W t < measure L W s := by
  obtain ⟨x, rest, hh, hi, -, rfl⟩ := put_spec hs
  have hpos := List.length_pos_of_ne_nil (item_ne_nil (h.items i hi x (by simp [hh])))
  refine measure_lt hi rfl ?_ ?_
  · intro j hj
    simp only [mass, Function.update_of_ne hj]
  · have hmul := Nat.mul_lt_mul_of_pos_right (show W < W * W by nlinarith) hpos
    refine Nat.mul_lt_mul_of_pos_left ?_ (by positivity)
    simp only [Function.update_self, hh, List.flatten_cons, List.flatten_append, List.flatten_nil,
      List.append_nil, List.length_append, Nat.mul_add]
    omega

theorem measure_recv {W : Nat} (hW : 2 ≤ W) (h : Sound L s) (hs : step L s .recv = some t) :
    measure L W t < measure L W s := by
  obtain ⟨x, rest, hb, -, rfl⟩ := recv_spec hs
  have hpos := List.length_pos_of_ne_nil (item_ne_nil (h.items L.last (Nat.le_refl _) x
    (by simp [hb])))
  refine measure_lt (Nat.le_refl L.last) rfl ?_ ?_
  · intro j hj
    have hj' : j + 1 ≠ L.last + 1 := by omega
    simp only [mass, Function.update_of_ne hj, Function.update_of_ne hj']
  · have hmul := Nat.mul_lt_mul_of_pos_right (show 1 < W by omega) hpos
    refine Nat.mul_lt_mul_of_pos_left ?_ (by positivity)
    simp only [Function.update_self, hb, List.flatten_cons, List.length_append, Nat.mul_add]
    omega

theorem measure_take {grow i k : Nat} (hg : Grows L grow) (h1 : 1 ≤ grow) (h : Sound L s)
    (hs : step L s (.take i k) = some t) :
    measure L (grow + 1) t < measure L (grow + 1) s := by
  have ht := take_spec hs
  have hi := ht.inside
  obtain ⟨x, rest, hx⟩ := List.exists_cons_of_ne_nil ht.some
  have hpos : 0 < ((s.buf i).take k).flatten.length := by
    rw [hx, List.flatten_cons, List.length_append]
    have hitem := ht.item h (x := x) (by simp [hx])
    have hlen := List.length_pos_of_ne_nil (item_ne_nil hitem)
    omega
  have hwork := ht.work_length hg h
  have hbuf : (s.buf i).flatten.length =
      ((s.buf i).take k).flatten.length + (t.buf i).flatten.length := by
    rw [← List.length_append, ← List.flatten_append, ← ht.buf]
  generalize ((s.buf i).take k).flatten.length = n at hpos hwork hbuf
  obtain ⟨P, hP, hPpos⟩ : ∃ P, P = (grow + 1) ^ (3 * (L.last - (i + 1))) *
      ((grow + 1) * (grow + 1)) ∧ 0 < P := ⟨_, rfl, by positivity⟩
  have hpow : (grow + 1) ^ (3 * (L.last - i)) = P * (grow + 1) := by
    rw [hP, show 3 * (L.last - i) = 3 * (L.last - (i + 1)) + 3 by omega, pow_add]
    ring
  have hfrom : mass L (grow + 1) t i +
      P * ((grow + 1) * (s.part (i + 1)).length + (grow + 1) * ((grow + 1) * n)) =
        mass L (grow + 1) s i + P * ((grow + 1) * (t.part (i + 1)).length) := by
    simp only [mass, hpow, hbuf, ht.hand_ne i (by omega)]
    ring
  have hto : mass L (grow + 1) t (i + 1) =
      mass L (grow + 1) s (i + 1) + P * (t.hand (i + 1)).flatten.length := by
    simp only [mass, ht.free, ht.buf_ne (i + 1) (by omega), ht.part_ne (i + 1 + 1) (by omega), hP,
      List.flatten_nil, List.length_nil]
    ring
  have hne : ∀ j, j ≠ i → j ≠ i + 1 → mass L (grow + 1) t j = mass L (grow + 1) s j := by
    intro j hj hj'
    simp only [mass, ht.hand_ne j hj', ht.buf_ne j hj, ht.part_ne (j + 1) (by omega)]
  have hsum := sum_two (Finset.mem_range.mpr (show i < L.last + 1 by omega))
    (Finset.mem_range.mpr (show i + 1 < L.last + 1 by omega)) (by omega)
    (mass L (grow + 1) s) (mass L (grow + 1) t) hne
  have hless : (t.hand (i + 1)).flatten.length + (grow + 1) * (t.part (i + 1)).length <
      (grow + 1) * (s.part (i + 1)).length + (grow + 1) * ((grow + 1) * n) := by
    have hmul := Nat.mul_lt_mul_of_pos_left (show 1 * n < (grow + 1) * n from
      Nat.mul_lt_mul_of_pos_right (by omega) hpos) (show 0 < grow + 1 by omega)
    rw [Nat.one_mul] at hmul
    omega
  have hmul := Nat.mul_lt_mul_of_pos_left hless hPpos
  rw [Nat.mul_add] at hmul
  rw [measure, measure, ht.source]
  omega

theorem measure_step {grow : Nat} (hg : Grows L grow) (h1 : 1 ≤ grow) (h : Sound L s)
    (hs : step L s e = some t) : measure L (grow + 1) t < measure L (grow + 1) s := by
  cases e with
  | read k => exact measure_read hg hs
  | put i => exact measure_put (by omega) h hs
  | take i k => exact measure_take hg h1 h hs
  | recv => exact measure_recv (by omega) h hs

end Measure

section Room

/-- How many tokens the items of a task hold. -/
def Loop.worth (L : Loop α) (i : Nat) : Nat :=
  if L.kind i = .encode ∨ L.kind i = .split then 1 else L.size

/-- How many tokens the hands of a task hold. -/
def Loop.held (L : Loop α) : Nat → Nat
  | 0 => L.size
  | i + 1 => L.size + L.most (i + 1) * L.worth i

/-- No more tokens than these fit between the two ends of task `0`. -/
def Loop.room (L : Loop α) : Nat :=
  ∑ i ∈ Finset.range (L.last + 1), (L.cap i * L.worth i + L.held i + L.size)

def Held (L : Loop α) (s : State α) : Prop :=
  ∀ i ≤ L.last, (tokens (s.hand i).flatten).length ≤ L.held i

theorem item_worth {i : Nat} {x : List (Cell α)} (h : L.Item (L.kind i) x) :
    (tokens x).length ≤ L.worth i := by
  have hlen := length_tokens x
  unfold Loop.worth
  cases hk : L.kind i with
  | encode =>
    rw [hk] at h
    obtain ⟨c, rfl⟩ := h
    simpa using hlen
  | split =>
    rw [hk] at h
    obtain ⟨a, rfl⟩ := h
    simp
  | chunk =>
    rw [hk] at h
    exact hlen.trans h.2
  | decode | pack | relay =>
    rw [hk] at h
    obtain ⟨m, hm, rfl⟩ := h
    simpa using hm.2.1

theorem items_worth {i : Nat} {xs : List (List (Cell α))} (h : ∀ x ∈ xs, L.Item (L.kind i) x) :
    (tokens xs.flatten).length ≤ xs.length * L.worth i := by
  induction xs with
  | nil => simp
  | cons x xs ih =>
    have hx := item_worth (h x List.mem_cons_self)
    have hxs := ih fun y hy => h y (List.mem_cons_of_mem x hy)
    rw [List.flatten_cons, tokens_append, List.length_append, List.length_cons, Nat.succ_mul]
    omega

theorem Sound.part_size (h : Sound L s) {i : Nat} (hi : i < L.last) :
    (tokens (s.part (i + 1))).length ≤ L.size := by
  rcases h.part_cut hi with hn | ⟨m, rest, hm, -, hcut⟩
  · simp [hn]
  · have hle := congrArg (fun l => (tokens l).length) hcut
    simp only [tokens_frame, tokens_append, List.length_append] at hle
    have hsize := hm.2.1
    omega

theorem held_step (hsound : Sound L s) (h : Held L s) (hs : step L s e = some t) : Held L t := by
  cases e with
  | read k =>
    obtain ⟨m, hm, -, -, heq⟩ := read_spec hs
    intro i hi
    by_cases h0 : i = 0
    · subst h0
      rw [heq]
      simp only [Function.update_self, singles_flatten, tokens_frame]
      exact hm.2.1
    · rw [heq]
      simp only [Function.update_of_ne h0]
      exact h i hi
  | put i =>
    obtain ⟨x, rest, hh, -, -, rfl⟩ := put_spec hs
    intro j hj
    have hle := h j hj
    by_cases hji : j = i
    · subst hji
      rw [hh, List.flatten_cons, tokens_append, List.length_append] at hle
      simp only [Function.update_self]
      omega
    · simpa only [Function.update_of_ne hji] using hle
  | take i k =>
    have ht := take_spec hs
    intro j hj
    by_cases hji : j = i + 1
    · subst hji
      have hwork := congrArg List.length (work_map (f := fun _ => ()) (fun _ _ => rfl)
        (fun hk => hsound.idle (i + 1) ht.inside hk) ((s.buf i).take k).flatten)
      rw [← ht.hand, ← ht.part, List.length_map, List.length_map, List.length_append,
        List.length_append] at hwork
      have hpart := hsound.part_size ht.inside
      have htaken := items_worth fun x hx => ht.item hsound hx
      have hmost := Nat.mul_le_mul_right (L.worth i) ht.most
      simp only [Loop.held]
      omega
    · rw [ht.hand_ne j hji]
      exact h j hj
  | recv =>
    obtain ⟨x, rest, -, -, rfl⟩ := recv_spec hs
    exact h

def Feeding (_ : State α) (e : Ev) : Prop := e ≠ .recv

structure Fed (L : Loop α) (l : List α) (s : State α) : Prop where
  sound : Sound L s
  held : Held L s
  total : (content L s).length = l.length
  nothing : s.part (L.last + 1) = []

theorem before_init (l : List α) (n : Nat) : before { source := l } n = l := by
  induction n with
  | zero => rfl
  | succ n ih => simp [before, pair, ih]

theorem before_length (s : State α) (n : Nat) : (before s n).length = s.source.length +
    ∑ i ∈ Finset.range n, ((tokens (s.part (i + 1))).length + (tokens (pair s i)).length) := by
  induction n with
  | zero => rfl
  | succ n ih =>
    rw [before, List.length_append, List.length_append, ih, Finset.sum_range_succ]
    omega

theorem fed_init (L : Loop α) (l : List α) : Fed L l { source := l } where
  sound := sound_init L l
  held := by simp [Held]
  total := by rw [content, before_init]
  nothing := rfl

theorem fed_step {l : List α} (h : Fed L l s) (he : Feeding s e) (hs : step L s e = some t) :
    Fed L l t where
  sound := sound_step h.sound hs
  held := held_step h.sound h.held hs
  total := by
    have hkept := congrArg List.length (content_step (f := fun _ => ()) (fun _ _ => rfl) h.sound hs)
    rw [List.length_map, List.length_map] at hkept
    rw [hkept, h.total]
  nothing := by
    rw [← h.nothing]
    cases e with
    | recv => exact absurd rfl he
    | read k =>
      obtain ⟨m, -, -, -, heq⟩ := read_spec hs
      rw [heq]
    | put i =>
      obtain ⟨x, rest, -, -, -, rfl⟩ := put_spec hs
      rfl
    | take i k =>
      have ht := take_spec hs
      exact ht.part_ne _ (by have hi := ht.inside; omega)

theorem Fed.le_room {l : List α} (h : Fed L l s) (hsource : s.source = []) :
    l.length ≤ L.room := by
  rw [← h.total, content, before_length, hsource, List.length_nil, Nat.zero_add]
  apply Finset.sum_le_sum
  intro i hi
  have hle : i ≤ L.last := Nat.lt_succ_iff.mp (Finset.mem_range.mp hi)
  have hbuf := items_worth fun x hx => h.sound.items i hle x (List.mem_append_left _ hx)
  have hfits := Nat.mul_le_mul_right (L.worth i) (h.sound.fits i)
  have hhand := h.held i hle
  have hpart : (tokens (s.part (i + 1))).length ≤ L.size := by
    by_cases hl : i = L.last
    · simp [hl, h.nothing]
    · exact h.sound.part_size (by omega)
  simp only [pair, List.flatten_append, tokens_append, List.length_append]
  omega

theorem Fed.full {l : List α} (h : Fed L l s) (hlong : L.room < l.length)
    (hend : ∀ e, Feeding s e → step L s e = none) : Full L s := by
  refine full_of_stuck h.sound (fun _ => hend _ nofun) (fun _ => hend _ nofun) fun he => ?_
  have hle := h.le_room (source_empty (hend _ nofun) he)
  omega

/-- Task `0` receives nothing and reads as much as it can. -/
def Greedy (L : Loop α) (s : State α) (e : Ev) : Prop :=
  Feeding s e ∧ ∀ k, e = .read k → ∀ j, (step L s (.read j)).isSome → j ≤ k

theorem exists_greedy (he : Feeding s e) (hs : (step L s e).isSome) :
    ∃ f, Greedy L s f ∧ (step L s f).isSome := by
  cases e with
  | read k =>
    have hmost : ∀ j, (step L s (.read j)).isSome → j ≤ L.most 0 := by
      intro j hj
      obtain ⟨u, hu⟩ := Option.isSome_iff_exists.mp hj
      obtain ⟨⟨-, -, -, hle, -⟩, -⟩ := Option.ite_none_right_eq_some.mp hu
      exact hle
    have hspec : (step L s (.read (Nat.findGreatest (fun j => (step L s (.read j)).isSome)
        (L.most 0)))).isSome :=
      Nat.findGreatest_spec (P := fun j => (step L s (.read j)).isSome) (hmost k hs) hs
    refine ⟨.read _, ⟨nofun, ?_⟩, hspec⟩
    rintro j hj i hi
    obtain rfl := Ev.read.inj hj
    exact Nat.le_findGreatest (hmost i hi) hi
  | put i => exact ⟨.put i, ⟨he, nofun⟩, hs⟩
  | take i k => exact ⟨.take i k, ⟨he, nofun⟩, hs⟩
  | recv => exact absurd rfl he

/-- A run in which task `0` receives nothing comes to an end. -/
theorem exists_end {grow : Nat} (hg : Grows L grow) (h1 : 1 ≤ grow) (l : List α) :
    ∃ es t, Path (step L) (Greedy L) { source := l } es t ∧ Fed L l t ∧
      ∀ e, Feeding t e → step L t e = none := by
  refine exists_goal (measure L (grow + 1)) (Fed L l)
    (fun s => ∀ e, Feeding s e → step L s e = none) ?_ { source := l } (fed_init L l)
  intro s hs hgo
  push Not at hgo
  obtain ⟨e, he, hne⟩ := hgo
  obtain ⟨f, hf, hsome⟩ := exists_greedy he (Option.isSome_iff_ne_none.mpr hne)
  obtain ⟨u, hu⟩ := Option.isSome_iff_exists.mp hsome
  exact ⟨f, u, hf, hu, fed_step hs hf.1 hu, measure_step hg h1 hs.sound hu⟩

end Room

end ShellProxy.Chain
