import Mathlib.Data.List.Basic
import Mathlib.Data.List.Infix

/-! Frames as they lie on a byte stream: a header of so many bytes, and then the tokens of the
message. Who reads the header knows which byte of the frame is its last. -/
namespace ShellProxy.Chain
variable {α : Type*}

/-- A byte on its way. A byte of a header carries no token. -/
structure Cell (α : Type*) where
  token : Option α
  last : Bool := false
  deriving DecidableEq

def tokens (l : List (Cell α)) : List α := l.filterMap (·.token)

def plain (m : List α) : List (Cell α) := m.map fun t => ⟨some t, false⟩

/-- The frame of a message behind a header of `h` bytes. -/
def frame (h : Nat) (m : List α) : List (Cell α) :=
  List.replicate h ⟨none, false⟩ ++
    (plain m.dropLast ++ m.getLast?.toList.map fun t => ⟨some t, true⟩)

/-- Read on behind `part`: the messages of the frames that become complete, and what is begun. -/
def decode (part : List (Cell α)) : List (Cell α) → List (List (Cell α)) × List (Cell α)
  | [] => ([], part)
  | c :: cs =>
    if c.last then
      (plain (tokens (part ++ [c])) :: (decode [] cs).1, (decode [] cs).2)
    else decode (part ++ [c]) cs

def load (w : α → Nat) : List α → Nat
  | [] => 0
  | a :: l => w a + load w l

@[simp] theorem load_nil (w : α → Nat) : load w [] = 0 := rfl

@[simp] theorem load_cons (w : α → Nat) (a : α) (l : List α) :
    load w (a :: l) = w a + load w l := rfl

@[simp] theorem load_append (w : α → Nat) (l m : List α) :
    load w (l ++ m) = load w l + load w m := by
  induction l with
  | nil => simp
  | cons a l ih =>
    rw [List.cons_append, load_cons, load_cons, ih]
    omega

theorem length_le_load {w : α → Nat} {l : List α} (h : ∀ a ∈ l, 1 ≤ w a) :
    l.length ≤ load w l := by
  induction l with
  | nil => exact Nat.le_refl 0
  | cons a l ih =>
    have ha := h a List.mem_cons_self
    have hl := ih fun b hb => h b (List.mem_cons_of_mem a hb)
    rw [load_cons, List.length_cons]
    omega

@[simp] theorem tokens_nil : tokens ([] : List (Cell α)) = [] := rfl

@[simp] theorem tokens_append (l m : List (Cell α)) : tokens (l ++ m) = tokens l ++ tokens m :=
  List.filterMap_append

@[simp] theorem tokens_plain (m : List α) : tokens (plain m) = m := by
  induction m with
  | nil => rfl
  | cons t m ih =>
    change t :: tokens (plain m) = t :: m
    rw [ih]

theorem plain_append (m n : List α) : plain (m ++ n) = plain m ++ plain n := List.map_append

@[simp] theorem length_plain (m : List α) : (plain m).length = m.length := List.length_map _

theorem length_tokens (l : List (Cell α)) : (tokens l).length ≤ l.length :=
  List.length_filterMap_le _ l

theorem frame_concat (h : Nat) (m : List α) (t : α) :
    frame h (m ++ [t]) = List.replicate h ⟨none, false⟩ ++ plain m ++ [⟨some t, true⟩] := by
  simp [frame]

theorem message_cases {m : List α} (hm : m ≠ []) : ∃ pre t, m = pre ++ [t] :=
  ⟨m.dropLast, m.getLast hm, (List.dropLast_append_getLast hm).symm⟩

theorem tokens_replicate (h : Nat) :
    tokens (List.replicate h (⟨none, false⟩ : Cell α)) = [] := by
  induction h with
  | zero => rfl
  | succ h ih => exact ih

theorem tokens_frame (h : Nat) (m : List α) : tokens (frame h m) = m := by
  by_cases hm : m = []
  · simp [hm, frame, plain, tokens_replicate]
  · obtain ⟨pre, t, rfl⟩ := message_cases hm
    rw [frame_concat, tokens_append, tokens_append, tokens_replicate, tokens_plain]
    rfl

theorem length_frame (h : Nat) {m : List α} (hm : m ≠ []) : (frame h m).length = h + m.length := by
  obtain ⟨pre, t, rfl⟩ := message_cases hm
  simp [frame_concat]

theorem frame_ends (h : Nat) {m : List α} (hm : m ≠ []) :
    ∃ body t, frame h m = body ++ [⟨some t, true⟩] ∧ ∀ c ∈ body, c.last = false := by
  obtain ⟨pre, t, rfl⟩ := message_cases hm
  refine ⟨_, t, frame_concat h pre t, ?_⟩
  intro c hc
  rcases List.mem_append.mp hc with hc | hc
  · rw [List.eq_of_mem_replicate hc]
  · obtain ⟨a, -, rfl⟩ := List.mem_map.mp hc
    rfl

theorem first_end {a b x y : List (Cell α)} {c d : Cell α} (ha : ∀ e ∈ a, e.last = false)
    (hb : ∀ e ∈ b, e.last = false) (hc : c.last = true) (hd : d.last = true)
    (h : a ++ c :: x = b ++ d :: y) : a = b ∧ c = d ∧ x = y := by
  induction a generalizing b with
  | nil =>
    cases b with
    | nil => simpa using h
    | cons e b =>
      obtain rfl : c = e := by simpa using congrArg List.head? h
      rw [hb c List.mem_cons_self] at hc
      cases hc
  | cons e a ih =>
    cases b with
    | nil =>
      obtain rfl : e = d := by simpa using congrArg List.head? h
      rw [ha e List.mem_cons_self] at hd
      cases hd
    | cons f b =>
      obtain ⟨rfl, hrest⟩ := List.cons.inj h
      obtain ⟨rfl, hcd, hxy⟩ := ih (fun g hg => ha g (List.mem_cons_of_mem _ hg))
        (fun g hg => hb g (List.mem_cons_of_mem _ hg)) hrest
      exact ⟨rfl, hcd, hxy⟩

section Frames
variable (header : List α → Nat)

def frames (ms : List (List α)) : List (Cell α) := ms.flatMap fun m => frame (header m) m

@[simp] theorem frames_nil : frames header ([] : List (List α)) = [] := rfl

@[simp] theorem frames_cons (m : List α) (ms : List (List α)) :
    frames header (m :: ms) = frame (header m) m ++ frames header ms := rfl

theorem frames_append (ms ns : List (List α)) :
    frames header (ms ++ ns) = frames header ms ++ frames header ns := List.flatMap_append

variable {header}

theorem frames_begin {part l : List (Cell α)} {ms : List (List α)} (hms : ∀ m ∈ ms, m ≠ [])
    (hp : ∀ c ∈ part, c.last = false) {c : Cell α} (hc : c.last = true)
    (h : part ++ c :: l = frames header ms) :
    ∃ m rest, ms = m :: rest ∧ frame (header m) m = part ++ [c] ∧ l = frames header rest := by
  cases ms with
  | nil => simp at h
  | cons m rest =>
    obtain ⟨body, t, hbody, hopen⟩ := frame_ends (header m) (hms m List.mem_cons_self)
    rw [frames_cons, hbody, List.append_assoc] at h
    obtain ⟨rfl, rfl, rfl⟩ := first_end hp hopen hc rfl h
    exact ⟨m, rest, rfl, hbody, rfl⟩

theorem frames_open {l : List (Cell α)} {ms : List (List α)} (hms : ∀ m ∈ ms, m ≠ [])
    (hl : ∀ c ∈ l, c.last = false) (h : l = frames header ms) : l = [] := by
  cases ms with
  | nil => exact h
  | cons m rest =>
    obtain ⟨body, t, hbody, -⟩ := frame_ends (header m) (hms m List.mem_cons_self)
    have hmem : (⟨some t, true⟩ : Cell α) ∈ l := by
      rw [h, frames_cons, hbody]
      simp
    cases hl _ hmem

theorem decode_frames {part cs rest : List (Cell α)} {ms : List (List α)} (hms : ∀ m ∈ ms, m ≠ [])
    (hp : ∀ c ∈ part, c.last = false) (h : part ++ (cs ++ rest) = frames header ms) :
    ∃ done left, ms = done ++ left ∧ (decode part cs).1 = done.map plain ∧
      (∀ c ∈ (decode part cs).2, c.last = false) ∧
      (decode part cs).2 ++ rest = frames header left := by
  induction cs generalizing part ms with
  | nil => exact ⟨[], ms, rfl, rfl, hp, h⟩
  | cons c cs ih =>
    rw [decode]
    cases hc : c.last with
    | false =>
      rw [if_neg Bool.false_ne_true]
      refine ih hms ?_ (by simpa using h)
      intro d hd
      rcases List.mem_append.mp hd with hd | hd
      · exact hp d hd
      · rwa [List.mem_singleton.mp hd]
    | true =>
      rw [if_pos rfl]
      obtain ⟨m, ns, rfl, hm, hrest⟩ := frames_begin hms hp hc h
      obtain ⟨done, left, rfl, hdone, hopen, hleft⟩ :=
        ih (fun n hn => hms n (List.mem_cons_of_mem m hn)) (List.forall_mem_nil _)
          (show [] ++ (cs ++ rest) = frames header ns from hrest)
      refine ⟨m :: done, left, rfl, ?_, hopen, hleft⟩
      change plain (tokens (part ++ [c])) :: (decode [] cs).1 = _
      rw [← hm, tokens_frame, hdone, List.map_cons]

theorem decode_tokens (part cs : List (Cell α)) :
    tokens part ++ tokens cs =
      tokens (decode part cs).1.flatten ++ tokens (decode part cs).2 := by
  induction cs generalizing part with
  | nil => simp [decode]
  | cons c cs ih =>
    have hcons : tokens part ++ tokens (c :: cs) = tokens (part ++ [c]) ++ tokens cs := by
      rw [← tokens_append, ← tokens_append, List.append_assoc, List.singleton_append]
    rw [hcons, decode]
    split
    · have hrest := ih []
      rw [tokens_nil, List.nil_append] at hrest
      simp only [List.flatten_cons, tokens_append, tokens_plain, hrest, List.append_assoc]
    · exact ih (part ++ [c])

/-- What is behind a cut in a frame is no longer than its tokens cost, when each token costs one at
least and the tokens of the whole message pay for its header. -/
theorem frame_cost {cost : α → Nat} (hone : ∀ t, 1 ≤ cost t) {g l : List (Cell α)} {m : List α}
    (hm : m ≠ []) (hc : header m + m.length ≤ load cost m) (h : g ++ l = frame (header m) m) :
    l.length ≤ load cost (tokens l) := by
  obtain ⟨x, hx⟩ : ∃ x, frame (header m) m = List.replicate (header m) ⟨none, false⟩ ++ x :=
    ⟨_, rfl⟩
  have htok : tokens x = m := by
    have hall := tokens_frame (header m) m
    rwa [hx, tokens_append, tokens_replicate, List.nil_append] at hall
  have hlen : x.length = m.length := by
    have hall := length_frame (header m) hm
    rw [hx, List.length_append, List.length_replicate] at hall
    omega
  rw [hx] at h
  rcases List.append_eq_append_iff.mp h with ⟨a, ha, rfl⟩ | ⟨a, rfl, ha⟩
  · have hnone : tokens a = [] := by
      have hzero := congrArg tokens ha
      rw [tokens_replicate, tokens_append] at hzero
      exact (List.append_eq_nil_iff.mp hzero.symm).2
    have hle := congrArg List.length ha
    rw [List.length_replicate, List.length_append] at hle
    rw [tokens_append, hnone, List.nil_append, htok, List.length_append]
    omega
  · have hsum : (tokens a).length + (tokens l).length = a.length + l.length := by
      rw [← List.length_append, ← tokens_append, ← ha, htok, ← hlen, ha, List.length_append]
    have hca := length_tokens a
    have hcl := length_le_load (w := cost) (l := tokens l) fun t _ => hone t
    omega

theorem frames_cost {cost : α → Nat} (hone : ∀ t, 1 ≤ cost t) {g l : List (Cell α)}
    {ms : List (List α)} (hms : ∀ m ∈ ms, m ≠ [] ∧ header m + m.length ≤ load cost m)
    (h : g ++ l = frames header ms) : l.length ≤ load cost (tokens l) := by
  induction ms generalizing g l with
  | nil =>
    obtain ⟨-, rfl⟩ := List.append_eq_nil_iff.mp h
    exact Nat.le_refl 0
  | cons m ms ih =>
    obtain ⟨hm, hc⟩ := hms m List.mem_cons_self
    have hrest := fun n hn => hms n (List.mem_cons_of_mem m hn)
    rw [frames_cons] at h
    rcases List.append_eq_append_iff.mp h with ⟨a, ha, rfl⟩ | ⟨a, rfl, ha⟩
    · have hcut := frame_cost hone hm hc ha.symm
      have hwhole : (frames header ms).length ≤ load cost (tokens (frames header ms)) :=
        ih (g := []) hrest rfl
      rw [tokens_append, load_append, List.length_append]
      omega
    · exact ih hrest ha.symm

end Frames

end ShellProxy.Chain
