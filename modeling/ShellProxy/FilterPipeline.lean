import ShellProxy.Lib.Thin

/-! A remote command that copies its stdin to its stdout, run with a client that streams into it:
the loop from `client::run` through both ends of the remote side and back. -/
namespace ShellProxy.FilterPipeline
open Machine Chain

/-- The end of stdin travels as a frame of its own; it makes the command end, and the exit report
follows the output. In a pipe either takes the place of a byte. -/
inductive Token where
  | byte (b : UInt8)
  | eof
  | exit
  deriving DecidableEq, Repr

/-- The tasks, each with the buffer it fills. `client` is the one loop of `client::run`: a frame it
writes is awaited in the branch that has read stdin, and no event frame is read meanwhile. -/
inductive Task where
  | client
  | frameReader
  | forwarder
  | router
  | stdinPump
  | command
  | outPump
  | serveWriter
  | channelReader
  | engine
  | bridge
  | daemonWriter
  deriving DecidableEq, Repr

def tasks : List Task :=
  [.client, .frameReader, .forwarder, .router, .stdinPump, .command, .outPump, .serveWriter,
    .channelReader, .engine, .bridge, .daemonWriter]

def taskAt (i : Nat) : Task := tasks.getD i .daemonWriter

/-- Sockets, pipes and the two ways of the SSH channel are filled by the byte, the others are
channels of whole frames (of `ChanEvent::Data` those that `channelReader` fills). -/
def Task.kind : Task → Kind
  | .client | .forwarder | .serveWriter | .daemonWriter => .encode
  | .frameReader | .router | .engine => .decode
  | .stdinPump | .command => .split
  | .outPump => .pack
  | .channelReader => .chunk
  | .bridge => .relay

/-- The longest read of each task: `in_buf` of the client, the buffer of `cat`, `buf` of `pump`, a
packet of SSH. A frame is read to its end and no further. -/
def Task.most : Task → Nat
  | .client => 64 * 1024
  | .command => 128 * 1024
  | .outPump | .channelReader => 32 * 1024
  | _ => 1

def Task.pass : Task → Token → Token
  | .command, .eof => .exit
  | _, t => t

/-- Capacities of the buffers by the task that fills each, and the length of the exit report. -/
structure Capacities where
  of : Task → Nat
  report : Nat
  pos : ∀ t, 0 < of t

/-- How many bytes of a frame stand in front of its tokens: the five of the header, less the one
that stands for an end, and the report of `Exit`. -/
def header (report : Nat) : List Token → Nat
  | [.eof] => 4
  | [.exit] => 4 + report
  | _ => 5

def Token.alone : Token → Bool
  | .byte _ => false
  | .eof | .exit => true

theorem taskAt_of_le {i : Nat} (h : 12 ≤ i) : taskAt i = .daemonWriter := by
  rw [taskAt, List.getD_eq_getElem?_getD, List.getElem?_eq_none h]
  rfl

theorem taskAt_command {i : Nat} (h : taskAt i = .command) : i = 5 := by
  by_cases hi : i < 12
  · revert h
    revert hi
    revert i
    decide
  · rw [taskAt_of_le (by omega)] at h
    cases h

theorem pipeline_links (i : Nat) (hi : i < 11) :
    (taskAt (i + 1)).kind.takes (taskAt i).kind = true := by
  revert i
  decide

theorem Task.most_pos (t : Task) : 0 < t.most := by
  cases t <;> decide

theorem pipeline_single (i : Nat)
    (h : (taskAt (i + 1)).kind = .encode ∨ (taskAt (i + 1)).kind = .relay) :
    (taskAt (i + 1)).most = 1 := by
  by_cases hi : i < 11
  · revert h
    revert hi
    revert i
    decide
  · rw [taskAt_of_le (by omega)]
    rfl

theorem pipeline_small (i : Nat)
    (h : i = 0 ∨ (taskAt i).kind = .pack ∨ (taskAt i).kind = .chunk) :
    (taskAt i).most ≤ 64 * 1024 := by
  rcases h with rfl | h
  · decide
  · revert h
    cases taskAt i <;> simp [Task.kind, Task.most]

/-- The loop. Bytes of a frame that the client has read stay read here; what its select loses with
the future that reads them is the subject of `ClientRun`. -/
def pipeline (c : Capacities) : Loop Token where
  last := 11
  cap i := c.of (taskAt i)
  kind i := (taskAt i).kind
  most i := (taskAt i).most
  size := 64 * 1024
  alone := Token.alone
  header := header c.report
  pass i := (taskAt i).pass
  cap_pos i := c.pos (taskAt i)
  most_pos i := (taskAt i).most_pos
  first := rfl
  final := rfl
  links := pipeline_links
  single := pipeline_single
  small := pipeline_small

def stream (input : List UInt8) : List Token := input.map .byte ++ [.eof]

def start (input : List UInt8) : State Token := { source := stream input }

/-- No component can step, and the client has not received the exit report. -/
def Deadlocked (c : Capacities) (s : State Token) : Prop :=
  Blocked (pipeline c) s ∧ .exit ∉ tokens (s.part 12)

/-- What a token takes on the wire when it has a frame of its own. -/
def Token.cost (report : Nat) : Token → Nat
  | .byte _ => 6
  | .eof => 5
  | .exit => 5 + report

/-- No exit report goes to the command, no end of stdin comes from it. -/
def Turned (i : Nat) (t : Token) : Prop := if i < 5 then t ≠ .exit else t ≠ .eof

section
variable {c : Capacities} {input : List UInt8} {s : State Token}

theorem alone_pass (t : Task) (x : Token) : (t.pass x).alone = x.alone := by
  cases t <;> cases x <;> rfl

theorem cost_header (t : Token) : t.cost c.report = (pipeline c).header [t] + 1 := by
  cases t <;> simp [Token.cost, pipeline, header]
  omega

theorem cost_count (report : Nat) (l : List Token) :
    load (Token.cost report) l + l.countP Token.alone =
      6 * l.length + report * l.count .exit := by
  induction l with
  | nil => rfl
  | cons t l ih =>
    rw [load_cons, List.countP_cons, List.length_cons, List.count_cons]
    cases t with
    | exit =>
      simp only [Token.cost, Token.alone, if_true, beq_self_eq_true, Nat.mul_add, Nat.mul_one]
      omega
    | byte b | eof =>
      simp only [Token.cost, Token.alone, if_true, Bool.false_eq_true, if_false, beq_iff_eq,
        reduceCtorEq, Nat.add_zero]
      omega

theorem cost_le (report : Nat) (l : List Token) :
    6 * l.length ≤ load (Token.cost report) l + l.countP Token.alone := by
  rw [cost_count]
  exact Nat.le_add_right _ _

theorem cost_eq (report : Nat) {l : List Token} (h : .exit ∉ l) :
    load (Token.cost report) l + l.countP Token.alone = 6 * l.length := by
  rw [cost_count, List.count_eq_zero_of_not_mem h, Nat.mul_zero, Nat.add_zero]

theorem message_kinds {m : List Token} (h : (pipeline c).Message m) :
    (∃ t, m = [t]) ∨ header c.report m = 5 ∧ .exit ∉ m ∧ m.countP Token.alone = 0 := by
  rcases h.2.2 with hone | hbytes
  · exact .inl (List.length_eq_one_iff.mp hone)
  · right
    refine ⟨?_, fun hm => Bool.noConfusion (hbytes _ hm), ?_⟩
    · unfold header
      split
      · exact Bool.noConfusion (hbytes .eof List.mem_cons_self)
      · exact Bool.noConfusion (hbytes .exit List.mem_cons_self)
      · rfl
    · rw [List.countP_eq_zero]
      intro t ht
      rw [show t.alone = false from hbytes t ht]
      exact Bool.false_ne_true

theorem pays (c : Capacities) : Pays (pipeline c) (Token.cost c.report) where
  token t := by
    cases t <;> simp only [Token.cost] <;> omega
  message m hm := by
    rcases message_kinds hm with ⟨t, rfl⟩ | ⟨hh, hexit, hbytes⟩
    · rw [load_cons, load_nil, cost_header, List.length_singleton]
    · have hcost := cost_eq c.report hexit
      have hpos := List.length_pos_of_ne_nil hm.1
      change header c.report m + m.length ≤ _
      omega

theorem grows (c : Capacities) : Grows (pipeline c) (6 + c.report) := by
  intro m hm
  change header c.report m + m.length ≤ _
  rcases message_kinds hm with ⟨t, rfl⟩ | ⟨hh, -, -⟩
  · cases t <;> simp only [header, List.length_singleton] <;> omega
  · have hpos := List.length_pos_of_ne_nil hm.1
    have hmul := Nat.mul_le_mul_right m.length (Nat.le_add_right 6 c.report)
    omega

structure Reached (c : Capacities) (input : List UInt8) (s : State Token) : Prop where
  sound : Sound (pipeline c) s
  order : (before s 12).map Token.alone = List.replicate input.length false ++ [true]
  turned : Marked Turned s

theorem turned_pass (i : Nat) (t : Token) (h : Turned i t) :
    Turned (i + 1) ((pipeline c).turn (i + 1) t) := by
  by_cases h5 : i + 1 = 5
  · obtain rfl : i = 4 := by omega
    cases t <;> simp [Turned, Loop.turn, pipeline, taskAt, tasks, Task.kind, Task.pass]
  · have hsame : (pipeline c).turn (i + 1) t = t := by
      have hcommand := fun hk => h5 (taskAt_command hk)
      unfold Loop.turn
      split
      · change (taskAt (i + 1)).pass t = t
        cases hk : taskAt (i + 1) with
        | command => exact absurd hk hcommand
        | client | frameReader | forwarder | router | stdinPump | outPump | serveWriter
        | channelReader | engine | bridge | daemonWriter => cases t <;> rfl
      · rfl
    rw [hsame]
    unfold Turned at h ⊢
    by_cases hlt : i < 5
    · rw [if_pos hlt] at h
      rwa [if_pos (by omega)]
    · rw [if_neg hlt] at h
      rwa [if_neg (by omega)]

theorem reached {es : List Ev} (h : Path (step (pipeline c)) Any (start input) es s) :
    Reached c input s := by
  have hall := h.invariant (I := fun s => Sound (pipeline c) s ∧
      (content (pipeline c) s).map Token.alone = (stream input).map Token.alone ∧
      Marked Turned s)
    (fun s e t h _ hs => ⟨sound_step h.1 hs,
      (content_step (fun i t => alone_pass (taskAt i) t) h.1 hs).trans h.2.1,
      marked_step turned_pass (fun _ ht => ht) h.2.2 hs⟩)
    ⟨sound_init _ _, by rw [content, start, before_init], ?_⟩
  · refine ⟨hall.1, ?_, hall.2.2⟩
    have horder := hall.2.1
    rw [content] at horder
    rw [show (12 : Nat) = (pipeline c).last + 1 from rfl, horder, stream, List.map_append,
      List.map_map]
    congr 1
    exact List.eq_replicate_iff.mpr ⟨by simp, by simp [Token.alone]⟩
  · constructor
    · intro t ht
      simp only [start, stream, List.mem_append, List.mem_map, List.mem_singleton] at ht
      rcases ht with ⟨b, -, rfl⟩ | rfl <;> simp [Turned]
    · simp [start, pair]
    · simp [start]

/-- The fewest bytes that fill each buffer and the hands of each task, in frames of one byte. -/
def Capacities.fits (c : Capacities) : Nat :=
  (c.of .client + 1) / 6 + (c.of .frameReader + 1) + (c.of .forwarder / 6 + 1) +
    (c.of .router + 1) + (c.of .stdinPump + 1) + (c.of .command + 1) + (c.of .outPump + 1) +
    ((c.of .serveWriter + c.of .channelReader + 1) / 6 + 1) + (c.of .engine + 1) +
    (c.of .bridge + 1) + (c.of .daemonWriter / 6 + 1)

theorem cost_bytes (report : Nat) {l : List Token} (h : l.countP Token.alone = 0) :
    load (Token.cost report) l = 6 * l.length := by
  have hexit : .exit ∉ l := fun hm => List.countP_eq_zero.mp h _ hm rfl
  have hcost := cost_eq report hexit
  omega

namespace Reached

theorem count (h : Reached c input s) : (before s 12).countP Token.alone = 1 := by
  have horder := congrArg (List.countP id) h.order
  rw [List.countP_map] at horder
  simpa [List.countP_replicate] using horder

theorem length (h : Reached c input s) : (before s 12).length = input.length + 1 := by
  have horder := congrArg List.length h.order
  simpa using horder

theorem bytes (h : Reached c input s) {front rest : List Token} (hall : before s 12 = front ++ rest)
    (hne : rest ≠ []) : front.countP Token.alone = 0 := by
  have horder := h.order
  obtain ⟨pre, t, rfl⟩ := Chain.message_cases hne
  rw [hall, ← List.append_assoc, List.map_append] at horder
  have hbytes := (List.append_inj' horder rfl).1
  rw [List.countP_eq_zero]
  intro x hx
  have hmem : x.alone ∈ List.replicate input.length false := by
    rw [← hbytes]
    exact List.mem_map_of_mem (List.mem_append_left _ hx)
  rw [List.eq_of_mem_replicate hmem]
  exact Bool.false_ne_true

theorem slots_le (h : Reached c input s) (hf : Full (pipeline c) s) {i : Nat} (hi : i ≤ 11)
    (hk : (taskAt i).kind ≠ .encode) (hc : (taskAt i).kind ≠ .chunk) :
    c.of (taskAt i) + 1 ≤ (tokens (pair s i)).length :=
  hf.tokens h.sound hi hk hc

theorem flow_le (h : Reached c input s) {i : Nat} (hi : i ≤ 11) (hr : (pipeline c).Reads i)
    (hzero : (tokens (flow (pipeline c) s i)).countP Token.alone = 0) :
    (flow (pipeline c) s i).length ≤ 6 * (tokens (flow (pipeline c) s i)).length := by
  rw [← cost_bytes c.report hzero]
  exact flow_cost (pays c) h.sound (g := []) hi hr rfl

theorem wire_le (h : Reached c input s) {i : Nat} (hi : i ≤ 11) (hr : (pipeline c).Reads i)
    (hk : (taskAt i).kind ≠ .chunk) (hzero : (tokens (pair s i)).countP Token.alone = 0) :
    (pair s i).length ≤ 6 * (tokens (pair s i)).length := by
  have hflow : flow (pipeline c) s i = pair s i := flow_eq hk
  have hle := h.flow_le hi hr (hflow ▸ hzero)
  rwa [hflow] at hle

theorem chunks_le (h : Reached c input s) (h7 : (tokens (pair s 7)).countP Token.alone = 0)
    (h8 : (tokens (pair s 8)).countP Token.alone = 0) :
    (pair s 8).length + (pair s 7).length ≤
      6 * ((tokens (pair s 8)).length + (tokens (pair s 7)).length) := by
  have hflow : flow (pipeline c) s 8 = pair s 8 ++ pair s 7 := flow_chunk rfl
  have hle := h.flow_le (i := 8) (by omega) (.inr rfl) (by
    rw [hflow, tokens_append, List.countP_append, h7, h8])
  rwa [hflow, tokens_append, List.length_append, List.length_append] at hle

theorem held_cost (h : Reached c input s)
    (hone : (ahead s 0).countP Token.alone = 1) :
    load (Token.cost c.report) (tokens (s.hand 0).flatten) + 1 ≤ 6 * (ahead s 0).length := by
  have hexit : .exit ∉ ahead s 0 := by
    intro hm
    rcases List.mem_append.mp hm with hm | hm
    · refine h.turned.pair 0 .exit ?_ rfl
      rw [pair, List.flatten_append, tokens_append]
      exact List.mem_append_right _ hm
    · exact h.turned.source .exit hm rfl
  have hcost := cost_eq c.report hexit
  rw [hone, ahead, load_append] at hcost
  rw [ahead]
  omega

theorem only_bytes (h : Reached c input s) (h0 : s.hand 0 ≠ []) :
    (ahead s 0).countP Token.alone = 1 ∧ (tokens (s.buf 0).flatten).countP Token.alone = 0 ∧
      ∀ i, 1 ≤ i → i < 12 → (tokens (pair s i)).countP Token.alone = 0 := by
  have hahead := ahead_ne_nil (pays c) h.sound (.inr rfl) h0
  obtain ⟨front, hfront⟩ := before_split s (show 0 < 12 by omega)
  rw [← List.append_assoc] at hfront
  have hzero := h.bytes hfront hahead
  have hcount := h.count
  rw [hfront, List.countP_append, hzero, Nat.zero_add] at hcount
  refine ⟨hcount, ?_, ?_⟩
  · rw [List.countP_append] at hzero
    exact Nat.eq_zero_of_add_eq_zero_left hzero
  · intro i h1 hi
    obtain ⟨outer, houter⟩ := before_split s hi
    obtain ⟨inner, hinner⟩ := before_split s h1
    have hall := h.count
    rw [houter, ahead, hinner] at hall
    simp only [List.countP_append, hcount] at hall
    rw [pair, List.flatten_append, tokens_append, List.countP_append]
    omega

/-- With full hands the client holds the end back, and everything it has put is full of bytes. -/
theorem fits_le (h : Reached c input s) (hf : Full (pipeline c) s) : c.fits ≤ input.length := by
  obtain ⟨hone, hbuf0, hbytes⟩ := h.only_bytes (hf 0 (Nat.zero_le _)).1
  have hpair0 : tokens (pair s 0) = tokens (s.buf 0).flatten ++ tokens (s.hand 0).flatten := by
    rw [pair, List.flatten_append, tokens_append]
  -- the tokens of each buffer with the hands that fill it
  have h0 : c.of .client + 1 ≤ (pair s 0).length := hf.cells h.sound (Nat.zero_le _)
  have h1 : c.of .frameReader + 1 ≤ _ := h.slots_le hf (i := 1) (by omega) (by decide) (by decide)
  have h2 : c.of .forwarder + 1 ≤ (pair s 2).length := hf.cells h.sound (show 2 ≤ 11 by omega)
  have h3 : c.of .router + 1 ≤ _ := h.slots_le hf (i := 3) (by omega) (by decide) (by decide)
  have h4 : c.of .stdinPump + 1 ≤ _ := h.slots_le hf (i := 4) (by omega) (by decide) (by decide)
  have h5 : c.of .command + 1 ≤ _ := h.slots_le hf (i := 5) (by omega) (by decide) (by decide)
  have h6 : c.of .outPump + 1 ≤ _ := h.slots_le hf (i := 6) (by omega) (by decide) (by decide)
  have h7 : c.of .serveWriter + 1 ≤ (pair s 7).length := hf.cells h.sound (show 7 ≤ 11 by omega)
  have h8 : c.of .channelReader + 1 ≤ (pair s 8).length := hf.cells h.sound (show 8 ≤ 11 by omega)
  have h9 : c.of .engine + 1 ≤ _ := h.slots_le hf (i := 9) (by omega) (by decide) (by decide)
  have h10 : c.of .bridge + 1 ≤ _ := h.slots_le hf (i := 10) (by omega) (by decide) (by decide)
  have h11 : c.of .daemonWriter + 1 ≤ (pair s 11).length := hf.cells h.sound (Nat.le_refl 11)
  -- those on the wire come with headers
  have w0 : (pair s 0).length ≤ load (Token.cost c.report) (tokens (pair s 0)) :=
    flow_cost (pays c) h.sound (g := []) (Nat.zero_le _) (.inr rfl)
      (flow_eq (L := pipeline c) (i := 0) (show (taskAt 0).kind ≠ .chunk by decide))
  have w2 := h.wire_le (i := 2) (by omega) (.inr rfl) (by decide) (hbytes 2 (by omega) (by omega))
  have w8 := h.chunks_le (hbytes 7 (by omega) (by omega)) (hbytes 8 (by omega) (by omega))
  have w11 := h.wire_le (i := 11) (by omega) (.inl rfl) (by decide)
    (hbytes 11 (by omega) (by omega))
  rw [hpair0, load_append, cost_bytes c.report hbuf0] at w0
  have hheld := h.held_cost hone
  have hlength := h.length
  simp only [ahead, before, hpair0, List.length_append] at hheld hlength
  obtain ⟨T, hT⟩ : ∃ T : Nat → Nat, ∀ i, (tokens (pair s i)).length = T i := ⟨_, fun _ => rfl⟩
  obtain ⟨P, hP⟩ : ∃ P : Nat → Nat, ∀ i, (tokens (s.part i)).length = P i := ⟨_, fun _ => rfl⟩
  obtain ⟨B, hB⟩ : ∃ B : Nat → Nat, ∀ i, (pair s i).length = B i := ⟨_, fun _ => rfl⟩
  simp only [hT, hP, hB] at h0 h1 h2 h3 h4 h5 h6 h7 h8 h9 h10 h11 w0 w2 w8 w11 hheld hlength
  unfold Capacities.fits
  omega

/-- The tokens on the wire with at most one behind a cut: where that is there, they are bytes. -/
theorem cut_le (h : Reached c input s) (he : Ended (pipeline c) s) {i : Nat} (hi : i ≤ 11)
    (hr : (pipeline c).Reads i) {l r : List (Cell Token)} (hl : flow (pipeline c) s i = l ++ r)
    {front rest : List Token} (hall : before s 12 = front ++ (tokens l ++ (tokens r ++ rest)))
    (hone : (tokens r).length ≤ 1) :
    (tokens l).length + (tokens r).length ≤ l.length / 6 + 1 := by
  have hpaid := he.paid (cost_header (c := c)) hi hr hl
  have hcost := cost_le c.report (tokens l)
  by_cases hn : tokens r = []
  · have hcount := h.count
    rw [hall, List.countP_append, List.countP_append] at hcount
    rw [hn, List.length_nil]
    omega
  · rw [← List.append_assoc] at hall
    have hzero := h.bytes hall (List.append_ne_nil_of_left_ne_nil hn rest)
    rw [List.countP_append] at hzero
    omega

theorem wire_fits (h : Reached c input s) (he : Ended (pipeline c) s) {i : Nat} (hi : i ≤ 11)
    (hr : (pipeline c).Reads i) (hk : (taskAt i).kind = .encode) :
    (tokens (pair s i)).length ≤ c.of (taskAt i) / 6 + 1 := by
  have hsplit : pair s i = (s.buf i).flatten ++ (s.hand i).flatten := by
    rw [pair, List.flatten_append]
  have hne : (pipeline c).kind i ≠ .chunk := by
    rw [show (pipeline c).kind i = .encode from hk]
    decide
  obtain ⟨front, hfront⟩ := before_split s (show i < 12 by omega)
  have hcut := h.cut_le he hi hr ((flow_eq hne).trans hsplit) hfront (he.single.hand i hi)
  have hcells : (s.buf i).flatten.length ≤ c.of (taskAt i) := he.buf_cells hi (.inl hk)
  have hdiv := Nat.div_le_div_right (c := 6) hcells
  rw [hsplit, tokens_append, List.length_append]
  omega

theorem chunks_fit (h : Reached c input s) (he : Ended (pipeline c) s) :
    (tokens (pair s 8)).length + (tokens (pair s 7)).length ≤
      (c.of .serveWriter + c.of .channelReader + 1) / 6 + 1 := by
  have hsplit : flow (pipeline c) s 8 =
      (pair s 8 ++ (s.buf 7).flatten) ++ (s.hand 7).flatten := by
    rw [flow_chunk rfl, List.append_assoc]
    simp only [pair, List.flatten_append, Nat.reduceSub]
  have hpart : s.part 8 = [] := he.part_empty (show 7 ≤ 11 by omega)
  obtain ⟨front, hfront⟩ := before_split s (show 8 < 12 by omega)
  have hall : before s 12 = front ++ (tokens (pair s 8 ++ (s.buf 7).flatten) ++
      (tokens (s.hand 7).flatten ++ before s 7)) := by
    rw [hfront, ahead, before, hpart]
    simp only [pair, tokens_append, tokens_nil, List.flatten_append, List.append_assoc,
      List.nil_append]
  have hcut := h.cut_le he (show 8 ≤ 11 by omega) (.inr rfl) hsplit hall
    (he.single.hand 7 (show 7 ≤ 11 by omega))
  have hbuf7 : (s.buf 7).flatten.length ≤ c.of .serveWriter :=
    he.buf_cells (show 7 ≤ 11 by omega) (.inl rfl)
  have hbuf8 : (s.buf 8).flatten.length ≤ c.of .channelReader :=
    he.buf_cells (show 8 ≤ 11 by omega) (.inr rfl)
  have hhand8 := he.single.chunk 8 (show 8 ≤ 11 by omega) rfl
  have hcells : (pair s 8 ++ (s.buf 7).flatten).length ≤
      c.of .serveWriter + c.of .channelReader + 1 := by
    rw [pair, List.flatten_append, List.length_append, List.length_append]
    omega
  have hdiv := Nat.div_le_div_right (c := 6) hcells
  have htokens : (tokens (pair s 7)).length =
      (tokens (s.buf 7).flatten).length + (tokens (s.hand 7).flatten).length := by
    rw [pair, List.flatten_append, tokens_append, List.length_append]
  rw [tokens_append, List.length_append] at hcut
  omega

theorem first_fits (h : Reached c input s) (he : Ended (pipeline c) s) (h0 : s.hand 0 = []) :
    (tokens (pair s 0)).length ≤ (c.of .client + 1) / 6 := by
  have hpair : pair s 0 = (s.buf 0).flatten := by rw [pair, h0, List.append_nil]
  have hflow : flow (pipeline c) s 0 = (s.buf 0).flatten ++ [] :=
    (flow_eq (L := pipeline c) (i := 0) (show (taskAt 0).kind ≠ .chunk by decide)).trans
      (by rw [hpair, List.append_nil])
  have hpaid := he.paid (cost_header (c := c)) (Nat.zero_le _) (.inr rfl) hflow
  have hcells : (s.buf 0).flatten.length ≤ c.of .client := he.buf_cells (Nat.zero_le _) (.inl rfl)
  have hcost := cost_le c.report (tokens (s.buf 0).flatten)
  obtain ⟨front, hfront⟩ := before_split s (show 0 < 12 by omega)
  have hcount := h.count
  rw [hfront, List.countP_append, List.countP_append] at hcount
  rw [hpair]
  omega

/-- With empty hands the client has come to the end of an input that fits. -/
theorem lt_fits (h : Reached c input s) (he : Ended (pipeline c) s) (h0 : s.hand 0 = []) :
    input.length < c.fits := by
  have hsource : s.source = [] := source_empty (he.still (.read 1) nofun) h0
  have hpart : ∀ i < 12, tokens (s.part (i + 1)) = [] := by
    intro i hi
    rw [he.part_empty (show i ≤ 11 by omega)]
    rfl
  have f0 := h.first_fits he h0
  have f1 : _ ≤ c.of .frameReader + 1 := he.pair_le (show 1 ≤ 11 by omega)
  have f2 : _ ≤ c.of .forwarder / 6 + 1 := h.wire_fits he (i := 2) (by omega) (.inr rfl) rfl
  have f3 : _ ≤ c.of .router + 1 := he.pair_le (show 3 ≤ 11 by omega)
  have f4 : _ ≤ c.of .stdinPump + 1 := he.pair_le (show 4 ≤ 11 by omega)
  have f5 : _ ≤ c.of .command + 1 := he.pair_le (show 5 ≤ 11 by omega)
  have f6 : _ ≤ c.of .outPump + 1 := he.pair_le (show 6 ≤ 11 by omega)
  have f8 := h.chunks_fit he
  have f9 : _ ≤ c.of .engine + 1 := he.pair_le (show 9 ≤ 11 by omega)
  have f10 : _ ≤ c.of .bridge + 1 := he.pair_le (show 10 ≤ 11 by omega)
  have f11 : _ ≤ c.of .daemonWriter / 6 + 1 := h.wire_fits he (Nat.le_refl 11) (.inl rfl) rfl
  obtain ⟨T, hT⟩ : ∃ T : Nat → Nat, ∀ i, (tokens (pair s i)).length = T i := ⟨_, fun _ => rfl⟩
  have hlength : ∑ i ∈ Finset.range 12, T i = input.length + 1 := by
    rw [← h.length, before_length, hsource, List.length_nil, Nat.zero_add]
    refine Finset.sum_congr rfl fun i hi => ?_
    rw [hpart i (Finset.mem_range.mp hi), List.length_nil, Nat.zero_add, hT]
  simp only [Finset.sum_range_succ, Finset.sum_range_zero] at hlength
  simp only [hT] at f0 f1 f2 f3 f4 f5 f6 f8 f9 f10 f11
  unfold Capacities.fits
  omega

end Reached

theorem exit_received (h : Reached c input s) (hb : Blocked (pipeline c) s) (h0 : s.hand 0 = []) :
    .exit ∈ tokens (s.part 12) := by
  have hall : before s 12 = tokens (s.part 12) := hb.received h.sound h0
  have hcount : 0 < (tokens (s.part 12)).countP Token.alone := by
    rw [← hall, h.count]
    exact Nat.one_pos
  obtain ⟨t, ht, halone⟩ := List.countP_pos_iff.mp hcount
  have hturned := h.turned.part 12 t ht
  cases t with
  | byte b => cases halone
  | eof => exact absurd rfl hturned
  | exit => exact ht

end

/-- Exactly the inputs that do not fill the buffers and hands between the two ends of the client
can be streamed without a deadlock in any interleaving. -/
theorem no_deadlock_iff (c : Capacities) (input : List UInt8) :
    (∀ es s, Path (step (pipeline c)) Any (start input) es s → ¬ Deadlocked c s) ↔
      input.length < c.fits := by
  constructor
  · intro h
    obtain ⟨es, s, hpath, he⟩ := exists_ended (grows c) (by omega) (stream input)
    have hr := reached hpath
    refine hr.lt_fits he ?_
    by_contra h0
    refine h es s hpath ⟨(he.full h0).blocked, ?_⟩
    rw [show s.part 12 = [] from he.nothing]
    exact List.not_mem_nil
  · intro hlt es s hpath hd
    have hr := reached hpath
    by_cases h0 : s.hand 0 = []
    · exact hd.2 (exit_received hr hd.1 h0)
    · have hle := hr.fits_le (full_of_stuck hr.sound (fun i => hd.1 (.put i))
        (fun i => hd.1 (.take i 1)) h0)
      omega

/-- A client that goes on with stdin whenever it can is stuck at the end of every run, however much
it reads at a time, when the input is this long. -/
theorem feeding_deadlocks {c : Capacities} {input : List UInt8} {es : List Ev} {s : State Token}
    (hlong : (pipeline c).room ≤ input.length)
    (h : Path (step (pipeline c)) Feeding (start input) es s)
    (hend : ∀ e, Feeding s e → step (pipeline c) s e = none) : Deadlocked c s := by
  have hfed : Fed (pipeline c) (stream input) s :=
    h.invariant (fun _ _ _ hf he hs => fed_step hf he hs) (fed_init _ _)
  have hlength : (pipeline c).room < (stream input).length := by
    simp only [stream, List.length_append, List.length_map, List.length_singleton]
    omega
  refine ⟨(hfed.full hlength hend).blocked, ?_⟩
  rw [show s.part 12 = [] from hfed.nothing]
  exact List.not_mem_nil

/-- The channels as the source sizes them, 64 KiB for every pipe, socket and window, and a report
of a hundred bytes. -/
def sourceCapacities : Capacities where
  of
    | .frameReader | .channelReader => 64
    | .router | .outPump | .engine | .bridge => 256
    | _ => 65536
  report := 100
  pos t := by cases t <;> decide

theorem sourceCapacities_room : (pipeline sourceCapacities).room ≤ 134217728 := by
  decide

/-- 128 MiB of stdin, read by 64 KiB, can deadlock with the client blocked in a write. -/
theorem long_stdin_deadlocks :
    ∃ es s, Path (step (pipeline sourceCapacities)) (Greedy (pipeline sourceCapacities))
      (start (List.replicate 134217728 0)) es s ∧ Deadlocked sourceCapacities s := by
  obtain ⟨es, s, hpath, -, hend⟩ := exists_end (grows sourceCapacities) (by omega)
    (stream (List.replicate 134217728 0))
  refine ⟨es, s, hpath, feeding_deadlocks ?_ (hpath.mono fun _ _ h => h.1) hend⟩
  rw [List.length_replicate]
  exact sourceCapacities_room

end ShellProxy.FilterPipeline
