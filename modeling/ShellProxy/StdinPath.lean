import ShellProxy.InputLanes
import ShellProxy.ServeInput

/-! Input of one execution from the client to the child: the lanes of the daemon, the bytes of the
SSH channel, and the router and the stdin pump of serve behind its frame reader. -/
namespace ShellProxy.StdinPath
open Frame Codec Machine FrameReader FrameStream ExecChannel ControlLoop InputLanes ServeInput
variable {I : Type}

/-- `seen` bytes of the channel are read, the last of them by the read future `rd`. -/
structure World (I : Type) where
  lanes : Lanes := {}
  seen : Nat := 0
  rd : Reading ExecKind := .new
  serve : Serve I := {}

inductive Ev (I : Type) where
  | lanes (e : InputLanes.Ev)
  | feed (n : Nat)
  | close
  | serve (e : ServeInput.Ev I)

def errorText : Frame.Error → String
  | .io e => "io error: " ++ e
  | .json e => "serialization error: " ++ e
  | .protocol m => "protocol error: " ++ m

def itemOf : Except Frame.Error (Option (ExecFrame ServeExec)) → ServeInput.Item
  | .ok (some f) => .frame f
  | .ok none => .closed
  | .error e => .bad (errorText e)

variable (K : Clock I) (X : ExecJson ServeExec)

/-- The router's read future waits again, or returns to the router. -/
def resumed (w : World I) : Poll ExecKind (ExecFrame ServeExec) → Option (World I)
  | .pending st => some { w with rd := st }
  | .ready r =>
    (ServeInput.step K w.serve (.arrive (itemOf r))).map fun s => { w with rd := .new, serve := s }

/-- The router reads only when it has nothing to hand over, and is aborted behind the loop. -/
def reads (w : World I) : Bool :=
  w.serve.loops && decide (w.serve.route = .reading) && w.serve.unread.isEmpty

def step (w : World I) : Ev I → Option (World I)
  | .lanes e => (InputLanes.step X w.lanes e).map fun l => { w with lanes := l }
  | .feed n =>
    if reads w ∧ 0 < n ∧ n ≤ w.rd.room ∧ w.seen + n ≤ w.lanes.wire.length then
      resumed K { w with seen := w.seen + n }
        (w.rd.feed ExecKind.tryFrom (decodeExec X) ((w.lanes.wire.drop w.seen).take n))
    else none
  | .close => if reads w then resumed K w (.ready w.rd.close) else none
  | .serve (.arrive _) => none
  | .serve e => (ServeInput.step K w.serve e).map fun s => { w with serve := s }

/-- The transport does not fail while the command runs: its end does not reach serve, and no write
to it fails. -/
def Up (w : World I) (e : Ev I) : Prop :=
  w.serve.loops = true → e ≠ .close ∧ e ≠ .lanes (.chan (.wrote .err))

def dataOf (items : List InputLanes.Item) : Bytes :=
  items.flatMap fun i => match i with
    | .frame (.stdinData d) => d
    | _ => []

/-! ### The lanes of the daemon -/

def stdinEvents : ExecFrame ServeExec → List StdinEvent
  | .stdinData d => [.data d]
  | .stdinEof => [.eof]
  | _ => []

def current : ExecChannel.Phase → List (ExecFrame ServeExec)
  | .writing f => [f]
  | _ => []

def input (l : Lanes) : List StdinEvent := l.sent.flatMap Item.stdin

def upstream (l : Lanes) : List StdinEvent :=
  l.chan.stdin ++ (heldStdin l.reader ++ l.pipe.flatMap Item.stdin)

variable {X}

/-- `fs` are the frames whose bytes have begun to enter the channel. The last of them may have been
given up inside. -/
structure Flows (hX : X.Lawful) (l : Lanes) (fs : List (ExecFrame ServeExec)) : Prop where
  sane : Sane X l
  shape : ∃ torn, fs = l.chan.written ++ current l.chan.phase ++ torn ∧
    (l.chan.phase ≠ .closing → torn = [])
  whole : (execFormat X hX).stream l.chan.written <+: l.wire
  bytes : ∃ tail, l.wire ++ tail = (execFormat X hX).stream fs ∧
    (l.chan.phase ≠ .closing → tail = l.rest)
  idle : current l.chan.phase = [] → l.rest = []
  small : ∀ f ∈ fs, (execFormat X hX).Small f
  rx : l.stdinRx = false → l.chan.phase = .closing
  le : fs.flatMap stdinEvents <+: input l
  chain : l.chan.phase ≠ .closing → fs.flatMap stdinEvents ++ upstream l = input l

section
variable {hX : X.Lawful} {l m : Lanes} {fs : List (ExecFrame ServeExec)}

theorem flows_init : Flows hX {} [] where
  sane := sane_init
  shape := ⟨[], rfl, fun _ => rfl⟩
  whole := List.nil_prefix
  bytes := ⟨[], rfl, fun _ => rfl⟩
  idle _ := rfl
  small := by simp
  rx h := by cases h
  le := List.nil_prefix
  chain _ := rfl

theorem small_stdin {e : StdinEvent} (h : Fine e) : (execFormat X hX).Small (stdinFrame e) := by
  cases e with
  | data d => exact ⟨.stdinData, d, rfl, h⟩
  | eof => exact ⟨.stdinEof, [], rfl, Nat.zero_le _⟩

theorem small_signal (hS : SignalsEncode X) (sig : Signal) :
    (execFormat X hX).Small (.signal sig) := by
  obtain ⟨p, hp, hl⟩ := hS sig
  refine ⟨.signal, p, ?_, hl⟩
  change execPayload X (.signal sig) = _
  simp [execPayload, toVec, hp, Except.mapError, Except.map]

theorem encoded_eq {f : ExecFrame ServeExec} (h : (execFormat X hX).Small f) :
    (encoded X (.writing f)).getD [] = (execFormat X hX).frameBytes f := by
  have he : encodeExecFrame X f = .ok ((execFormat X hX).frameBytes f) := h.encode
  simp [encoded, he, Except.toOption]

theorem Flows.congr (h : Flows hX l fs) (hsane : Sane X m) (hsent : m.sent = l.sent)
    (hphase : m.chan.phase = l.chan.phase) (hwritten : m.chan.written = l.chan.written)
    (hwire : m.wire = l.wire) (hrest : m.rest = l.rest) (hrx : m.stdinRx = l.stdinRx)
    (hup : l.chan.phase ≠ .closing → upstream m = upstream l) : Flows hX m fs := by
  have hin : input m = input l := by rw [input, input, hsent]
  refine ⟨hsane, ?_, ?_, ?_, ?_, h.small, ?_, ?_, ?_⟩
  · rw [hwritten, hphase]
    exact h.shape
  · rw [hwritten, hwire]
    exact h.whole
  · rw [hwire, hphase, hrest]
    exact h.bytes
  · rw [hphase, hrest]
    exact h.idle
  · rw [hrx, hphase]
    exact h.rx
  · rw [hin]
    exact h.le
  · rw [hphase, hin]
    intro hp
    rw [hup hp]
    exact h.chain hp

theorem Flows.still (h : Flows hX m fs) : ∃ more, Flows hX m (fs ++ more) :=
  ⟨[], by rwa [List.append_nil]⟩

theorem Flows.begin (h : Flows hX l fs) {c : Chan} {f : ExecFrame ServeExec}
    (htop : l.chan.phase = .top) (hsane : Sane X { l with
      chan := c, rest := (encoded X (.writing f)).getD [] })
    (hphase : c.phase = .writing f) (hwritten : c.written = l.chan.written)
    (hsmall : (execFormat X hX).Small f) (hlane : l.chan.stdin = stdinEvents f ++ c.stdin) :
    Flows hX { l with chan := c, rest := (encoded X (.writing f)).getD [] } (fs ++ [f]) := by
  have hne : l.chan.phase ≠ .closing := by simp [htop]
  have hrest : l.rest = [] := h.idle (by rw [htop]; rfl)
  obtain ⟨torn, hfs, htorn⟩ := h.shape
  obtain ⟨tail, hbytes, htail⟩ := h.bytes
  obtain rfl := htorn hne
  rw [htail hne, hrest, List.append_nil] at hbytes
  have hchain := h.chain hne
  have hnext : (fs ++ [f]).flatMap stdinEvents ++
      (c.stdin ++ (heldStdin l.reader ++ l.pipe.flatMap Item.stdin)) = input l := by
    rw [← hchain, upstream, hlane]
    simp
  refine ⟨hsane, ⟨[], ?_, fun _ => rfl⟩, ?_, ⟨_, ?_, fun _ => rfl⟩, fun hc => ?_, ?_, fun hx => ?_,
    ?_, fun _ => hnext⟩
  · rw [hfs, htop]
    simp [hphase, hwritten, current]
  · rw [hwritten]
    exact h.whole
  · rw [hbytes, encoded_eq hsmall, Format.stream_append]
    simp [Format.stream]
  · simp [hphase, current] at hc
  · exact List.forall_mem_append.mpr ⟨h.small, List.forall_mem_singleton.mpr hsmall⟩
  · exact absurd (h.rx hx) hne
  · exact ⟨_, hnext⟩

theorem Flows.leave (h : Flows hX l fs) {c : Chan} (hsane : Sane X { l with chan := c, rest := [] })
    (hphase : c.phase = .closing) (hwritten : c.written = l.chan.written) :
    Flows hX { l with chan := c, rest := [] } fs := by
  obtain ⟨torn, hfs, -⟩ := h.shape
  obtain ⟨tail, hbytes, -⟩ := h.bytes
  refine ⟨hsane, ⟨current l.chan.phase ++ torn, ?_, fun hn => absurd hphase hn⟩, ?_,
    ⟨tail, hbytes, fun hn => absurd hphase hn⟩, fun _ => rfl, h.small, fun _ => hphase, h.le,
    fun hn => absurd hphase hn⟩
  · rw [hfs]
    simp [hphase, hwritten, current]
  · rw [hwritten]
    exact h.whole

theorem flows_poll (hS : SignalsEncode X) (h : Flows hX l fs) {b : Branch}
    (hs : chanStep X l (.poll b) = some m) : ∃ more, Flows hX m (fs ++ more) := by
  have hsane := sane_chan hS h.sane hs
  obtain ⟨c, rest, hstep, rfl, -, -, -, hrest, -, -⟩ := chanStep_spec hs
  obtain rfl := hrest b rfl
  simp only [ExecChannel.step, Option.ite_none_right_eq_some, Option.some.injEq] at hstep
  obtain ⟨⟨htop, -⟩, rfl⟩ := hstep
  have hidle : l.rest = [] := h.idle (by rw [htop]; rfl)
  cases b with
  | shutdown => exact (h.leave hsane rfl rfl).still
  | inband =>
    cases hi : l.chan.inband with
    | cons sig rest =>
      simp only [Chan.take, hi] at hsane ⊢
      exact ⟨_, h.begin htop hsane rfl rfl (small_signal hS sig) rfl⟩
    | nil =>
      refine Flows.still ?_
      cases ho : l.chan.stdinOpen with
      | true =>
        simp only [Chan.take, hi, ho, if_true] at hsane ⊢
        refine h.congr hsane rfl rfl rfl rfl ?_ rfl (fun _ => rfl)
        rw [hidle, htop]
        rfl
      | false =>
        simp only [Chan.take, hi, ho, Bool.false_eq_true, if_false] at hsane ⊢
        exact h.leave hsane rfl rfl
  | stdin =>
    cases hl : l.chan.stdin with
    | nil =>
      simp only [Chan.take, hl] at hsane ⊢
      refine (h.congr hsane rfl rfl rfl rfl ?_ rfl fun _ => ?_).still
      · simp [hidle, htop, encoded]
      · simp [upstream, hl]
    | cons e lane =>
      have hfine : Fine e := h.sane.lane e (by simp [hl])
      refine ⟨[stdinFrame e], ?_⟩
      cases e with
      | data d =>
        simp only [Chan.take, hl] at hsane ⊢
        exact h.begin htop hsane rfl rfl (small_stdin hfine) hl
      | eof =>
        simp only [Chan.take, hl] at hsane ⊢
        exact h.begin htop hsane rfl rfl (small_stdin hfine) hl

theorem flows_wrote (h : Flows hX l fs) (hsane : Sane X m) {r : WriteEnd} (he : r ≠ .err)
    (hs : chanStep X l (.wrote r) = some m) : Flows hX m fs := by
  obtain ⟨c, rest, hstep, rfl, -, -, -, -, hwrote, -⟩ := chanStep_spec hs
  obtain ⟨rfl, hdone⟩ := hwrote r rfl
  simp only [ExecChannel.step] at hstep
  cases hp : l.chan.phase with
  | top | closing => simp [hp] at hstep
  | writing f =>
    simp only [hp, Option.ite_none_left_eq_some, Option.some.injEq] at hstep
    obtain ⟨-, rfl⟩ := hstep
    cases r with
    | err => exact absurd rfl he
    | cancelled => exact h.leave hsane rfl rfl
    | ok =>
      have hne : l.chan.phase ≠ .closing := by simp [hp]
      obtain ⟨torn, hfs, htorn⟩ := h.shape
      obtain ⟨tail, hbytes, htail⟩ := h.bytes
      obtain rfl := htorn hne
      rw [htail hne, hdone rfl] at hbytes
      have hwritten : fs = l.chan.written ++ [f] := by
        rw [hfs, hp]
        simp [current]
      refine ⟨hsane, ⟨[], ?_, fun _ => rfl⟩, ?_, ⟨[], hbytes, fun _ => rfl⟩, fun _ => rfl, h.small,
        fun hx => absurd (h.rx hx) hne, h.le, fun _ => h.chain hne⟩
      · rw [hwritten]
        simp [Chan.afterWrite, current]
      · rw [hwritten, List.append_nil] at hbytes
        simp only [Chan.afterWrite]
        rw [hbytes]

theorem flows_chan (hS : SignalsEncode X) (h : Flows hX l fs) {e : ExecChannel.Ev}
    (he : e ≠ .wrote .err) (hs : chanStep X l e = some m) : ∃ more, Flows hX m (fs ++ more) := by
  have hsane := sane_chan hS h.sane hs
  cases e with
  | pushSignal sig | pushStdin x => cases hs
  | poll b => exact flows_poll hS h hs
  | sigRecv | sigNone | sigStop | sigRequested ok =>
    obtain ⟨c, r, hstep, rfl, -, -, -, -, -, hsame⟩ := chanStep_spec hs
    obtain ⟨hstdin, hphase, -, hwritten⟩ := sender_still hstep (by simp)
    refine (h.congr hsane rfl hphase hwritten rfl (hsame (by simp) (by simp)) rfl ?_).still
    intro _
    simp [upstream, hstdin]
  | dropStdin | dropSignals | fire =>
    obtain ⟨c, r, hstep, rfl, -, -, -, -, -, hsame⟩ := chanStep_spec hs
    simp only [ExecChannel.step, Option.some.injEq] at hstep
    subst hstep
    exact (h.congr hsane rfl rfl rfl rfl (hsame (by simp) (by simp)) rfl fun _ => rfl).still
  | wrote r => exact (flows_wrote h hsane (fun hr => he (by rw [hr])) hs).still

theorem flows_handOver (h : Flows hX l fs) (hs : InputLanes.step X l .handOver = some m) :
    Flows hX m fs := by
  have hsane := sane_handOver h.sane hs
  cases hr : l.reader with
  | reading | ended => simp [InputLanes.step, hr] at hs
  | ctrl c =>
    simp only [InputLanes.step, hr, Option.ite_none_right_eq_some, Option.some.injEq] at hs
    obtain ⟨-, rfl⟩ := hs
    refine h.congr hsane rfl rfl rfl rfl rfl rfl (fun _ => ?_)
    cases hg : c.goesOn <;> simp [upstream, hr, InputLanes.heldStdin]
  | stdin e gone =>
    simp only [InputLanes.step, hr] at hs
    by_cases hrx : l.stdinRx = true
    · rw [if_pos hrx, Option.map_eq_some_iff] at hs
      obtain ⟨c, hc, rfl⟩ := hs
      simp only [ExecChannel.step, Option.ite_none_right_eq_some, Option.some.injEq] at hc
      obtain ⟨-, rfl⟩ := hc
      refine h.congr hsane rfl rfl rfl rfl rfl rfl (fun _ => ?_)
      cases gone <;> simp [upstream, hr, InputLanes.heldStdin]
    · -- the lane is gone with the forwarder
      rw [if_neg hrx, Option.some.injEq] at hs
      subst hs
      have hclosing := h.rx (by simpa using hrx)
      exact h.congr hsane rfl rfl rfl rfl rfl rfl (fun hn => absurd hclosing hn)

theorem flows_client (h : Flows hX l fs) (hsane : Sane X m) {i : InputLanes.Item}
    (hs : InputLanes.step X l (.client i) = some m) : Flows hX m fs := by
  simp only [InputLanes.step, Option.ite_none_right_eq_some, Option.some.injEq] at hs
  obtain ⟨-, rfl⟩ := hs
  have hin : input { l with sent := l.sent ++ [i], pipe := l.pipe ++ [i] } = input l ++ i.stdin := by
    simp [input]
  refine ⟨hsane, h.shape, h.whole, h.bytes, h.idle, h.small, h.rx, ?_, fun hn => ?_⟩
  · rw [hin]
    exact h.le.trans (List.prefix_append _ _)
  · rw [hin, ← h.chain hn]
    simp [upstream]

theorem flows_read (h : Flows hX l fs) (hsane : Sane X m)
    (hs : InputLanes.step X l .read = some m) : Flows hX m fs := by
  cases hr : l.reader with
  | stdin e gone | ctrl c | ended => simp [InputLanes.step, hr] at hs
  | reading =>
    cases hp : l.pipe with
    | nil => simp [InputLanes.step, hr, hp] at hs
    | cons i rest =>
      simp only [InputLanes.step, hr, hp, Option.some.injEq] at hs
      subst hs
      refine h.congr hsane rfl rfl rfl rfl rfl rfl (fun _ => ?_)
      simp [upstream, hr, hp, Item.stdin]

theorem flows_control (h : Flows hX l fs) (hsane : Sane X m)
    (hs : InputLanes.step X l .control = some m) : Flows hX m fs := by
  cases hm : l.main with
  | ponging | ended => simp [InputLanes.step, hm] at hs
  | selecting =>
    cases hc : l.ctrl with
    | nil => simp [InputLanes.step, hm, hc] at hs
    | cons c rest =>
      simp only [InputLanes.step, hm, hc, Option.ite_none_right_eq_some, Option.some.injEq] at hs
      obtain ⟨-, rfl⟩ := hs
      cases c with
      | signal sig =>
        obtain ⟨k, hk⟩ := trySend_keeps l.chan sig
        simp only [onCtrl, hk] at hsane ⊢
        exact h.congr hsane rfl rfl rfl rfl rfl rfl (fun _ => rfl)
      | ping | clientGone | fatal msg =>
        exact h.congr hsane rfl rfl rfl rfl rfl rfl (fun _ => rfl)

theorem flows_put (h : Flows hX l fs) (hsane : Sane X m) {n : Nat}
    (hs : InputLanes.step X l (.put n) = some m) : Flows hX m fs := by
  simp only [InputLanes.step, Option.ite_none_right_eq_some, Option.some.injEq] at hs
  obtain ⟨⟨hpos, hn, -⟩, rfl⟩ := hs
  have hcur : current l.chan.phase ≠ [] := by
    intro hc
    have hz := h.idle hc
    rw [hz, List.length_nil] at hn
    omega
  obtain ⟨tail, hbytes, htail⟩ := h.bytes
  have hne : l.chan.phase ≠ .closing := fun hc => hcur (by rw [hc]; rfl)
  refine ⟨hsane, h.shape, h.whole.trans (List.prefix_append _ _), ⟨l.rest.drop n, ?_, fun _ => rfl⟩,
    fun hc => absurd hc hcur, h.small, h.rx, h.le, h.chain⟩
  rw [← hbytes, htail hne, List.append_assoc, List.take_append_drop]

/-- What a step of the daemon does to its frames: it may begin one. -/
theorem flows_step (hS : SignalsEncode X) (h : Flows hX l fs) {e : InputLanes.Ev}
    (he : e ≠ .chan (.wrote .err)) (hs : InputLanes.step X l e = some m) :
    ∃ more, Flows hX m (fs ++ more) := by
  have hsane := sane_step hS h.sane hs
  cases e with
  | chan e => exact flows_chan hS h (fun hc => he (by rw [hc])) hs
  | client i => exact (flows_client h hsane hs).still
  | handOver => exact (flows_handOver h hs).still
  | read => exact (flows_read h hsane hs).still
  | control => exact (flows_control h hsane hs).still
  | put n => exact (flows_put h hsane hs).still
  | forwarderGone =>
    simp only [InputLanes.step, Option.ite_none_right_eq_some, Option.some.injEq] at hs
    obtain ⟨hc, rfl⟩ := hs
    refine Flows.still ?_
    exact ⟨hsane, h.shape, h.whole, h.bytes, h.idle, h.small, fun _ => hc, h.le, h.chain⟩
  | ctrlNone | ponged | emit | drain | settle =>
    simp only [InputLanes.step, Option.ite_none_right_eq_some, Option.some.injEq] at hs
    obtain ⟨-, rfl⟩ := hs
    exact (h.congr hsane rfl rfl rfl rfl rfl rfl fun _ => rfl).still
  | writerGone | opens | adjust n =>
    simp only [InputLanes.step, Option.some.injEq] at hs
    subst hs
    exact (h.congr hsane rfl rfl rfl rfl rfl rfl fun _ => rfl).still

theorem grows_step {e : InputLanes.Ev} (hs : InputLanes.step X l e = some m) :
    l.wire <+: m.wire ∧ input l <+: input m ∧ dataOf l.sent <+: dataOf m.sent := by
  cases e with
  | client i =>
    simp only [InputLanes.step, Option.ite_none_right_eq_some, Option.some.injEq] at hs
    obtain ⟨-, rfl⟩ := hs
    exact ⟨List.prefix_rfl, by simp [input], by simp [dataOf]⟩
  | put n =>
    simp only [InputLanes.step, Option.ite_none_right_eq_some, Option.some.injEq] at hs
    obtain ⟨-, rfl⟩ := hs
    exact ⟨List.prefix_append _ _, List.prefix_rfl, List.prefix_rfl⟩
  | chan e =>
    obtain ⟨c, rest, -, rfl, -⟩ := chanStep_spec hs
    exact ⟨List.prefix_rfl, List.prefix_rfl, List.prefix_rfl⟩
  | handOver =>
    cases hr : l.reader with
    | reading | ended => simp [InputLanes.step, hr] at hs
    | ctrl c =>
      simp only [InputLanes.step, hr, Option.ite_none_right_eq_some, Option.some.injEq] at hs
      obtain ⟨-, rfl⟩ := hs
      exact ⟨List.prefix_rfl, List.prefix_rfl, List.prefix_rfl⟩
    | stdin e gone =>
      simp only [InputLanes.step, hr] at hs
      split at hs
      · obtain ⟨c, -, rfl⟩ := Option.map_eq_some_iff.mp hs
        exact ⟨List.prefix_rfl, List.prefix_rfl, List.prefix_rfl⟩
      · cases hs
        exact ⟨List.prefix_rfl, List.prefix_rfl, List.prefix_rfl⟩
  | read =>
    simp only [InputLanes.step] at hs
    split at hs
    · cases hs
      exact ⟨List.prefix_rfl, List.prefix_rfl, List.prefix_rfl⟩
    · cases hs
  | control =>
    simp only [InputLanes.step] at hs
    split at hs
    · rename_i c rest _ _
      rw [Option.ite_none_right_eq_some] at hs
      obtain ⟨-, hs⟩ := hs
      cases hs
      cases c <;> exact ⟨List.prefix_rfl, List.prefix_rfl, List.prefix_rfl⟩
    · cases hs
  | ctrlNone | ponged | emit | drain | settle | forwarderGone =>
    simp only [InputLanes.step, Option.ite_none_right_eq_some, Option.some.injEq] at hs
    obtain ⟨-, rfl⟩ := hs
    exact ⟨List.prefix_rfl, List.prefix_rfl, List.prefix_rfl⟩
  | writerGone | opens | adjust n =>
    simp only [InputLanes.step, Option.some.injEq] at hs
    subst hs
    exact ⟨List.prefix_rfl, List.prefix_rfl, List.prefix_rfl⟩

end

/-! ### The router and the pump of serve -/

/-- What an item becomes on the stdin lane. -/
def msgs : ServeInput.Item → List StdinMsg
  | .frame (.stdinData d) => [.data d]
  | .frame .stdinEof => [.eof]
  | _ => []

def heldMsg : Route → List StdinMsg
  | .stdin m => [m]
  | _ => []

def msgData : StdinMsg → Bytes
  | .data d => d
  | .eof => []

def pending : Pump → Bytes
  | .writing rest => rest
  | _ => []

/-- All stdin messages of the frames that have arrived. -/
def inflow (s : Serve I) : List StdinMsg := s.arrived.flatMap msgs

def Plain (s : Serve I) : Prop := ∀ i ∈ s.arrived, i.terminal = false

/-- What was written to the child are the first bytes that arrived, and while the child reads only
the end of input has ended the pump. -/
structure Pumped (s : Serve I) : Prop where
  unread : ∀ i ∈ s.unread, i ∈ s.arrived
  le : s.childIn <+: (inflow s).flatMap msgData
  running : s.pump ≠ .ended → ∃ taken, .eof ∉ taken ∧
    taken.flatMap msgData = s.childIn ++ pending s.pump ∧
    taken ++ (s.stdinQ ++ (heldMsg s.route ++ s.unread.flatMap msgs)) = inflow s
  route : s.loops = true → Plain s → s.pump ≠ .ended →
    s.route ≠ .ended ∧ ∀ c, s.route = .ctrl c → terminal c = false
  closed : s.loops = true → Plain s → s.childClosed = false → s.pump = .ended →
    ∃ taken rest, .eof ∉ taken ∧ inflow s = taken ++ .eof :: rest ∧ taken.flatMap msgData = s.childIn

section
variable {K : Clock I} {s u : Serve I}

theorem pumped_init (l : Loop I) : Pumped ({ loop := l } : Serve I) where
  unread := by simp
  le := List.prefix_rfl
  running _ := ⟨[], by simp, rfl, rfl⟩
  route _ _ _ := ⟨by simp, by simp⟩
  closed _ _ _ h := by cases h

theorem heldMsg_route (i : ServeInput.Item) : heldMsg i.route = msgs i := by
  cases i with
  | frame f => cases f <;> rfl
  | closed => rfl
  | bad e => rfl

theorem route_plain {i : ServeInput.Item} (h : i.terminal = false) {c : Ctrl}
    (hc : i.route = .ctrl c) : terminal c = false := by
  have ho : ctrlOf i = some c := by simp [ctrlOf, hc]
  rw [terminal_ctrlOf ho]
  exact h

theorem Pumped.keep (h : Pumped s) (harr : u.arrived = s.arrived) (hun : u.unread = s.unread)
    (hroute : u.route = s.route) (hq : u.stdinQ = s.stdinQ) (hp : u.pump = s.pump)
    (hin : u.childIn = s.childIn) (hcc : u.childClosed = false → s.childClosed = false)
    (hl : u.loops = true → s.loops = true) : Pumped u := by
  have hflow : inflow u = inflow s := by rw [inflow, inflow, harr]
  have hplain : Plain u → Plain s := fun hpl i hi => hpl i (harr ▸ hi)
  refine ⟨?_, ?_, ?_, ?_, ?_⟩
  · rw [hun, harr]
    exact h.unread
  · rw [hin, hflow]
    exact h.le
  · rw [hp, hin, hq, hroute, hun, hflow]
    exact h.running
  · rw [hp, hroute]
    exact fun hlo hpl => h.route (hl hlo) (hplain hpl)
  · rw [hflow, hin, hp]
    exact fun hlo hpl hc => h.closed (hl hlo) (hplain hpl) (hcc hc)

theorem pumped_arrive (h : Pumped s) {i : ServeInput.Item}
    (hs : ServeInput.step K s (.arrive i) = some u) :
    Pumped u ∧ u.arrived = s.arrived ++ [i] ∧ u.loops = s.loops := by
  simp only [ServeInput.step, Option.ite_none_right_eq_some, Option.some.injEq] at hs
  obtain ⟨-, rfl⟩ := hs
  refine ⟨⟨?_, ?_, fun hp => ?_, fun hl hpl => ?_, fun hl hpl hc hp => ?_⟩, rfl, rfl⟩
  · intro j hj
    rcases List.mem_append.mp hj with hj | hj
    · exact List.mem_append_left _ (h.unread j hj)
    · exact List.mem_append_right _ hj
  · refine h.le.trans ?_
    simp only [inflow, List.flatMap_append]
    exact List.prefix_append _ _
  · obtain ⟨taken, heof, hdata, hall⟩ := h.running hp
    refine ⟨taken, heof, hdata, ?_⟩
    simp only [inflow, List.flatMap_append] at hall ⊢
    rw [← hall]
    simp
  · exact h.route hl fun j hj => hpl j (List.mem_append_left _ hj)
  · obtain ⟨taken, rest, heof, hall, hdata⟩ :=
      h.closed hl (fun j hj => hpl j (List.mem_append_left _ hj)) hc hp
    refine ⟨taken, rest ++ msgs i, heof, ?_, hdata⟩
    simp only [inflow, List.flatMap_append] at hall ⊢
    rw [hall]
    simp

theorem pumped_read (h : Pumped s) (hs : ServeInput.step K s .read = some u) : Pumped u := by
  obtain ⟨i, rest, hr, hun, rfl⟩ := read_spec hs
  have hmem : i ∈ s.arrived := h.unread i (by simp [hun])
  refine ⟨fun j hj => h.unread j (by rw [hun]; exact List.mem_cons_of_mem i hj), h.le, fun hp => ?_,
    fun _ hpl _ => ⟨route_not_ended i, fun c hc => route_plain (hpl i hmem) hc⟩, h.closed⟩
  obtain ⟨taken, heof, hdata, hall⟩ := h.running hp
  refine ⟨taken, heof, hdata, ?_⟩
  rw [hr, hun] at hall
  rw [heldMsg_route]
  exact hall

theorem pumped_handOver (h : Pumped s) (hs : ServeInput.step K s .handOver = some u) : Pumped u := by
  rcases handOver_spec hs with ⟨m, hr, hp, rfl⟩ | ⟨m, hr, hp, rfl⟩ | ⟨c, hr, rfl⟩
  · exact ⟨h.unread, h.le, fun hn => absurd hp hn, fun _ _ hn => absurd hp hn, h.closed⟩
  · refine ⟨h.unread, h.le, fun _ => ?_, fun _ _ _ => ⟨by simp, by simp⟩, h.closed⟩
    obtain ⟨taken, heof, hdata, hall⟩ := h.running hp
    refine ⟨taken, heof, hdata, ?_⟩
    change _ = inflow s
    rw [← hall, hr]
    simp [heldMsg]
  · have hheld : heldMsg (if terminal c then .ended else .reading) = [] := by
      cases terminal c <;> rfl
    refine ⟨h.unread, h.le, fun hp => ?_, fun hl hpl hp => ?_, h.closed⟩
    · obtain ⟨taken, heof, hdata, hall⟩ := h.running hp
      refine ⟨taken, heof, hdata, ?_⟩
      rw [hr] at hall
      rw [hheld]
      exact hall
    · have hc := (h.route hl hpl hp).2 c hr
      simp [hc]

theorem pumped_pumpTake (h : Pumped s) (hs : ServeInput.step K s .pumpTake = some u) : Pumped u := by
  cases hp : s.pump with
  | writing rest | ended => simp [ServeInput.step, hp] at hs
  | idle =>
    cases hq : s.stdinQ with
    | nil => simp [ServeInput.step, hp, hq] at hs
    | cons m rest =>
      obtain ⟨taken, heof, hdata, hall⟩ := h.running (by simp [hp])
      rw [hq] at hall
      cases m with
      | data d =>
        simp only [ServeInput.step, hp, hq, Option.some.injEq] at hs
        subst hs
        refine ⟨h.unread, h.le, fun _ => ⟨taken ++ [.data d], ?_, ?_, ?_⟩,
          fun hl hpl _ => h.route hl hpl (by simp [hp]), fun _ _ _ he => by cases he⟩
        · simpa using heof
        · simp [hdata, hp, pending, msgData]
        · change _ = inflow s
          rw [← hall]
          simp
      | eof =>
        simp only [ServeInput.step, hp, hq, Option.some.injEq] at hs
        subst hs
        refine ⟨h.unread, h.le, fun hn => absurd rfl hn, fun _ _ hn => absurd rfl hn,
          fun _ _ _ _ => ⟨taken, _, heof, hall.symm, ?_⟩⟩
        simpa [hp, pending] using hdata

theorem pumped_pumpWrite (h : Pumped s) {n : Nat}
    (hs : ServeInput.step K s (.pumpWrite n) = some u) : Pumped u := by
  cases hp : s.pump with
  | idle | ended => simp [ServeInput.step, hp] at hs
  | writing rest =>
    simp only [ServeInput.step, hp, Option.ite_none_right_eq_some, Option.some.injEq] at hs
    obtain ⟨-, rfl⟩ := hs
    obtain ⟨taken, heof, hdata, hall⟩ := h.running (by simp [hp])
    have hdata' : taken.flatMap msgData = (s.childIn ++ rest.take n) ++ rest.drop n := by
      rw [hdata, hp, List.append_assoc, List.take_append_drop]
      rfl
    refine ⟨h.unread, ?_, fun _ => ⟨taken, heof, hdata', hall⟩,
      fun hl hpl _ => h.route hl hpl (by simp [hp]), fun _ _ _ he => by cases he⟩
    change s.childIn ++ rest.take n <+: (inflow s).flatMap msgData
    rw [← hall, List.flatMap_append, hdata', List.append_assoc]
    exact List.prefix_append _ _

theorem pumped_step (h : Pumped s) {e : ServeInput.Ev I} (hs : ServeInput.step K s e = some u) :
    Pumped u := by
  cases e with
  | arrive i => exact (pumped_arrive h hs).1
  | read => exact pumped_read h hs
  | handOver => exact pumped_handOver h hs
  | pumpTake => exact pumped_pumpTake h hs
  | pumpWrite n => exact pumped_pumpWrite h hs
  | caught sig =>
    simp only [ServeInput.step, Option.ite_none_right_eq_some, Option.some.injEq] at hs
    obtain ⟨-, rfl⟩ := hs
    exact h.keep rfl rfl rfl rfl rfl rfl id id
  | pumpWrote =>
    simp only [ServeInput.step, Option.ite_none_right_eq_some, Option.some.injEq] at hs
    obtain ⟨hp, rfl⟩ := hs
    refine ⟨h.unread, h.le, fun _ => ?_, fun hl hpl _ => h.route hl hpl (by simp [hp]),
      fun _ _ _ he => by cases he⟩
    have hrun := h.running (by simp [hp])
    rw [hp] at hrun
    exact hrun
  | pumpFails =>
    cases hp : s.pump with
    | idle | ended => simp [ServeInput.step, hp] at hs
    | writing rest =>
      cases rest with
      | nil => simp [ServeInput.step, hp] at hs
      | cons b rest =>
        simp only [ServeInput.step, hp, Option.ite_none_right_eq_some, Option.some.injEq] at hs
        obtain ⟨hcc, rfl⟩ := hs
        exact ⟨h.unread, h.le, fun hn => absurd rfl hn, fun _ _ hn => absurd rfl hn,
          fun _ _ hc => by rw [hcc] at hc; cases hc⟩
  | pumpDone =>
    simp only [ServeInput.step, Option.ite_none_right_eq_some, Option.some.injEq] at hs
    obtain ⟨⟨hp, -, hend⟩, rfl⟩ := hs
    refine ⟨h.unread, h.le, fun hn => absurd rfl hn, fun _ _ hn => absurd rfl hn,
      fun hl hpl _ _ => ?_⟩
    have hroute := (h.route hl hpl (by simp [hp])).1
    rcases hend with he | hno
    · exact absurd he hroute
    · have hl' : s.loop.phase.loops = true := hl
      rw [hno] at hl'
      cases hl'
  | childCloses =>
    simp only [ServeInput.step, Option.some.injEq] at hs
    subst hs
    exact h.keep rfl rfl rfl rfl rfl rfl (fun hc => by cases hc) id
  | control =>
    obtain ⟨src, c, rest, -, hl, rfl⟩ := control_spec hs
    exact h.keep rfl rfl rfl rfl rfl rfl id (fun _ => hl)
  | loop e =>
    simp only [ServeInput.step] at hs
    split at hs
    · cases hs
    · obtain ⟨l, hstep, rfl⟩ := Option.map_eq_some_iff.mp hs
      exact h.keep rfl rfl rfl rfl rfl rfl id (sent_step hstep).2

theorem arrived_step {e : ServeInput.Ev I} (he : ∀ i, e ≠ .arrive i)
    (hs : ServeInput.step K s e = some u) :
    u.arrived = s.arrived ∧ (u.loops = true → s.loops = true) := by
  cases e with
  | arrive i => exact absurd rfl (he i)
  | read =>
    obtain ⟨i, rest, -, -, rfl⟩ := read_spec hs
    exact ⟨rfl, id⟩
  | handOver =>
    rcases handOver_spec hs with ⟨m, -, -, rfl⟩ | ⟨m, -, -, rfl⟩ | ⟨c, -, rfl⟩
    all_goals exact ⟨rfl, id⟩
  | caught sig | pumpWrote | pumpDone =>
    simp only [ServeInput.step, Option.ite_none_right_eq_some, Option.some.injEq] at hs
    obtain ⟨-, rfl⟩ := hs
    exact ⟨rfl, id⟩
  | pumpTake | pumpFails =>
    simp only [ServeInput.step] at hs
    split at hs
    all_goals first
      | cases hs; exact ⟨rfl, id⟩
      | rw [Option.ite_none_right_eq_some] at hs
        cases hs.2
        exact ⟨rfl, id⟩
      | cases hs
  | pumpWrite n =>
    simp only [ServeInput.step] at hs
    split at hs
    · rw [Option.ite_none_right_eq_some] at hs
      cases hs.2
      exact ⟨rfl, id⟩
    · cases hs
  | childCloses =>
    simp only [ServeInput.step, Option.some.injEq] at hs
    subst hs
    exact ⟨rfl, id⟩
  | control =>
    obtain ⟨src, c, rest, -, hl, rfl⟩ := control_spec hs
    exact ⟨rfl, fun _ => hl⟩
  | loop e =>
    simp only [ServeInput.step] at hs
    split at hs
    · cases hs
    · obtain ⟨l, hstep, rfl⟩ := Option.map_eq_some_iff.mp hs
      exact ⟨rfl, (sent_step hstep).2⟩

end

/-! ### From the client to the child -/

def toMsg : StdinEvent → StdinMsg
  | .data d => .data d
  | .eof => .eof

/-- The router has returned the first of the daemon's frames, and reads on behind them. -/
def Linked (hX : X.Lawful) (w : World I) : Prop :=
  ∃ fs done ahead, Flows hX w.lanes fs ∧ fs = done ++ ahead ∧
    w.serve.arrived = done.map ServeInput.Item.frame ∧ w.seen ≤ w.lanes.wire.length ∧ Waits w.rd ∧
    (execFormat X hX).Follows w.rd (((execFormat X hX).stream fs).drop w.seen) ahead

structure Inv (hX : X.Lawful) (w : World I) : Prop where
  pumped : Pumped w.serve
  le : inflow w.serve <+: (input w.lanes).map toMsg
  linked : w.serve.loops = true → Linked hX w

section
variable {K : Clock I} {hX : X.Lawful} {w v : World I}

theorem waits_new : Waits (.new : Reading ExecKind) := by simp [Waits, Reading.new]

theorem inv_init (l : Loop I) : Inv hX ({ serve := { loop := l } } : World I) where
  pumped := pumped_init l
  le := List.nil_prefix
  linked _ := ⟨[], [], [], flows_init, rfl, rfl, Nat.le_refl _, waits_new, rfl, rfl⟩

theorem msgs_frame (f : ExecFrame ServeExec) : msgs (.frame f) = (stdinEvents f).map toMsg := by
  cases f <;> rfl

theorem inflow_frames {s : Serve I} {done : List (ExecFrame ServeExec)}
    (h : s.arrived = done.map ServeInput.Item.frame) :
    inflow s = (done.flatMap stdinEvents).map toMsg := by
  rw [inflow, h, List.flatMap_map, List.map_flatMap]
  exact List.flatMap_congr fun f _ => msgs_frame f

theorem Linked.le (h : Linked hX w) : inflow w.serve <+: (input w.lanes).map toMsg := by
  obtain ⟨fs, done, ahead, hflow, rfl, harr, -⟩ := h
  rw [inflow_frames harr]
  refine (List.IsPrefix.map toMsg ?_).trans (hflow.le.map toMsg)
  rw [List.flatMap_append]
  exact List.prefix_append _ _

theorem inv_lanes (hS : SignalsEncode X) (h : Inv hX w) {e : InputLanes.Ev} (hok : Up w (.lanes e))
    (hs : step K X w (.lanes e) = some v) : Inv hX v := by
  obtain ⟨l, hstep, rfl⟩ := Option.map_eq_some_iff.mp hs
  obtain ⟨hwire, hin, -⟩ := grows_step hstep
  refine ⟨h.pumped, h.le.trans (hin.map toMsg), fun hl => ?_⟩
  obtain ⟨fs, done, ahead, hflow, hfs, harr, hseen, hwaits, hfollows⟩ := h.linked hl
  obtain ⟨more, hmore⟩ := flows_step hS hflow (fun he => (hok hl).2 (by rw [he])) hstep
  obtain ⟨tail, hbytes, -⟩ := hflow.bytes
  refine ⟨fs ++ more, done, ahead ++ more, hmore, by rw [hfs, List.append_assoc], harr,
    Nat.le_trans hseen hwire.length_le, hwaits, ?_⟩
  have hle : w.seen ≤ ((execFormat X hX).stream fs).length := by
    rw [← hbytes, List.length_append]
    omega
  rw [Format.stream_append, List.drop_append_of_le_length hle]
  exact hfollows.append fun g hg => hmore.small g (List.mem_append_right fs hg)

theorem inv_feed (h : Inv hX w) {n : Nat} (hs : step K X w (.feed n) = some v) : Inv hX v := by
  simp only [step, Option.ite_none_right_eq_some] at hs
  obtain ⟨⟨hreads, hpos, hroom, hlen⟩, hs⟩ := hs
  have hl : w.serve.loops = true := by
    simp only [reads, Bool.and_eq_true] at hreads
    exact hreads.1.1
  obtain ⟨fs, done, ahead, hflow, hfs, harr, hseen, hwaits, hfollows⟩ := h.linked hl
  obtain ⟨tail, hbytes, -⟩ := hflow.bytes
  have hsplit : ((execFormat X hX).stream fs).drop w.seen =
      (w.lanes.wire.drop w.seen).take n ++ ((execFormat X hX).stream fs).drop (w.seen + n) := by
    rw [← hbytes, List.drop_append_of_le_length hseen, List.drop_append_of_le_length hlen,
      ← List.append_assoc, ← List.drop_drop, List.take_append_drop]
  have hchunk : ((w.lanes.wire.drop w.seen).take n).length = n := by
    rw [List.length_take, List.length_drop]
    omega
  rw [hsplit] at hfollows
  have hres := hfollows.feed hwaits (by rintro h0; rw [h0] at hchunk; simp at hchunk; omega)
    (by rw [hchunk]; exact hroom)
  rw [show (execFormat X hX).kindOf = ExecKind.tryFrom from rfl,
    show (execFormat X hX).decode = decodeExec X from rfl] at hres
  cases hfeed : w.rd.feed ExecKind.tryFrom (decodeExec X) ((w.lanes.wire.drop w.seen).take n) with
  | pending st =>
    simp only [hfeed] at hs hres
    obtain rfl := Option.some.inj hs
    exact ⟨h.pumped, h.le, fun _ => ⟨fs, done, ahead, hflow, hfs, harr, hlen, hres.1, hres.2⟩⟩
  | ready r =>
    simp only [hfeed] at hs hres
    obtain ⟨f, gs, rfl, rfl, hrest⟩ := hres
    obtain ⟨s, hstep, rfl⟩ := Option.map_eq_some_iff.mp hs
    obtain ⟨hpumped, harr', -⟩ := pumped_arrive h.pumped hstep
    have hlinked : Linked hX { w with seen := w.seen + n, rd := .new, serve := s } := by
      refine ⟨fs, done ++ [f], gs, hflow, by rw [hfs]; simp, ?_, hlen, waits_new, ?_⟩
      · rw [harr', harr]
        simp [itemOf]
      · rw [hrest]
        refine Format.follows_new fun g hg => hflow.small g ?_
        rw [hfs]
        exact List.mem_append_right _ (List.mem_cons_of_mem f hg)
    exact ⟨hpumped, hlinked.le, fun _ => hlinked⟩

theorem inv_step (hS : SignalsEncode X) (h : Inv hX w) {e : Ev I} (hok : Up w e)
    (hs : step K X w e = some v) : Inv hX v := by
  cases e with
  | lanes e => exact inv_lanes hS h hok hs
  | feed n => exact inv_feed h hs
  | close =>
    simp only [step, Option.ite_none_right_eq_some] at hs
    have hl : w.serve.loops = true := by
      have hreads := hs.1
      simp only [reads, Bool.and_eq_true] at hreads
      exact hreads.1.1
    exact absurd rfl (hok hl).1
  | serve e =>
    cases e with
    | arrive i => cases hs
    | read | handOver | caught sig | pumpTake | pumpWrite n | pumpWrote | pumpFails | pumpDone
    | childCloses | control | loop e =>
      simp only [step, Option.map_eq_some_iff] at hs
      obtain ⟨s, hstep, rfl⟩ := hs
      obtain ⟨harr, hback⟩ := arrived_step (by simp) hstep
      refine ⟨pumped_step h.pumped hstep, ?_, fun hl => ?_⟩
      · rw [inflow, harr]
        exact h.le
      · obtain ⟨fs, done, ahead, hflow, hfs, hdone, hrest⟩ := h.linked (hback hl)
        exact ⟨fs, done, ahead, hflow, hfs, harr.trans hdone, hrest⟩

theorem inv_run (hS : SignalsEncode X) {es : List (Ev I)} {l : Loop I}
    (h : Path (step K X) Up { serve := { loop := l } } es w) : Inv hX w :=
  h.invariant (fun _ _ _ hi hok hs => inv_step hS hi hok hs) (inv_init l)

theorem data_input (sent : List InputLanes.Item) :
    ((sent.flatMap Item.stdin).map toMsg).flatMap msgData = dataOf sent := by
  induction sent with
  | nil => rfl
  | cons i sent ih =>
    rw [List.flatMap_cons, List.map_append, List.flatMap_append, ih]
    cases i with
    | frame f => cases f <;> simp [dataOf, Item.stdin, Item.next, InputLanes.heldStdin, toMsg, msgData]
    | gone => simp [dataOf, Item.stdin, Item.next, InputLanes.heldStdin, toMsg, msgData]
    | bad e => simp [dataOf, Item.stdin, Item.next, InputLanes.heldStdin]

/-- The first end of input comes from a StdinEof or from the clean end of the client. -/
theorem eof_sent {sent : List InputLanes.Item} {taken rest : List StdinMsg}
    (h : (sent.flatMap Item.stdin).map toMsg = taken ++ .eof :: rest) (heof : .eof ∉ taken) :
    ∃ pre i post, sent = pre ++ i :: post ∧ (i = .frame .stdinEof ∨ i = .gone) ∧
      (pre.flatMap Item.stdin).map toMsg = taken := by
  induction sent generalizing taken with
  | nil => simp at h
  | cons i sent ih =>
    rw [List.flatMap_cons, List.map_append] at h
    have hnone : i.stdin = [] → ∃ pre j post, i :: sent = pre ++ j :: post ∧
        (j = .frame .stdinEof ∨ j = .gone) ∧ (pre.flatMap Item.stdin).map toMsg = taken := by
      intro hi
      rw [hi, List.map_nil, List.nil_append] at h
      obtain ⟨pre, j, post, rfl, hj, hpre⟩ := ih h heof
      exact ⟨i :: pre, j, post, rfl, hj, by rw [List.flatMap_cons, hi]; exact hpre⟩
    have hend : (i = .frame .stdinEof ∨ i = .gone) → i.stdin = [.eof] →
        ∃ pre j post, i :: sent = pre ++ j :: post ∧
        (j = .frame .stdinEof ∨ j = .gone) ∧ (pre.flatMap Item.stdin).map toMsg = taken := by
      intro hi hstdin
      cases taken with
      | nil => exact ⟨[], i, sent, rfl, hi, rfl⟩
      | cons m taken =>
        rw [hstdin] at h
        simp only [List.map_cons, List.map_nil, toMsg, List.cons_append, List.nil_append,
          List.cons.injEq] at h
        exact absurd (by simp [h.1]) heof
    cases i with
    | gone => exact hend (.inr rfl) rfl
    | bad e => exact hnone rfl
    | frame f =>
      cases f with
      | stdinEof => exact hend (.inl rfl) rfl
      | exec req | signal sig | ping => exact hnone rfl
      | stdinData d =>
        have hstdin : (InputLanes.Item.frame (.stdinData d)).stdin = [StdinEvent.data d] := rfl
        rw [hstdin] at h
        cases taken with
        | nil => simp [toMsg] at h
        | cons m taken =>
          simp only [List.map_cons, List.map_nil, toMsg, List.cons_append, List.nil_append,
            List.cons.injEq] at h
          obtain ⟨rfl, hrest⟩ := h
          obtain ⟨pre, j, post, rfl, hj, hpre⟩ := ih hrest fun hm => heof (List.mem_cons_of_mem _ hm)
          refine ⟨.frame (.stdinData d) :: pre, j, post, rfl, hj, ?_⟩
          rw [List.flatMap_cons, hstdin, List.map_append, hpre]
          rfl

theorem calls_take {T : Type} (read : List Bytes → Except Frame.Error (Option T) × List Bytes)
    {m n : Nat} (h : m ≤ n) (s : List Bytes) : calls read m s = (calls read n s).take m := by
  induction m generalizing n s with
  | zero => rfl
  | succ m ih =>
    obtain ⟨k, rfl⟩ : ∃ k, n = k + 1 := ⟨n - 1, by omega⟩
    have hle : m ≤ k := Nat.le_of_succ_le_succ h
    rw [calls, calls, List.take_succ_cons, ih hle]

/-- The frames written so far stand whole at the beginning of the channel. -/
theorem Flows.decodable {l : Lanes} {fs : List (ExecFrame ServeExec)} (h : Flows hX l fs)
    (chunks : List Bytes) (hne : ∀ c ∈ chunks, c ≠ []) (hc : chunks.flatten = l.wire) :
    calls (readExecFrame X) l.chan.written.length chunks =
      l.chan.written.map fun f => .ok (some f) := by
  obtain ⟨torn, hfs, -⟩ := h.shape
  obtain ⟨tail, hbytes, -⟩ := h.bytes
  have hstream : (fs.map (execFormat X hX).frameBytes).flatten = (execFormat X hX).stream fs := by
    rw [Format.stream, List.flatMap_def]
  have hwire : l.wire = (fs.map (execFormat X hX).frameBytes).flatten.take l.wire.length := by
    rw [hstream, ← hbytes, List.take_left]
  have hle : l.wire.length ≤ (fs.map (execFormat X hX).frameBytes).flatten.length := by
    rw [hstream, ← hbytes, List.length_append]
    omega
  have hencode : List.Forall₂ (fun f b => (execFormat X hX).encode f = .ok b) fs
      (fs.map (execFormat X hX).frameBytes) := by
    rw [List.forall₂_map_right_iff, List.forall₂_same]
    exact fun f hf => (h.small f hf).encode
  obtain ⟨n, last, hcalls, hn, -, hnext, -, -⟩ :=
    Format.calls_cut hencode h.small l.wire.length hle chunks hne (hc.trans hwire)
  have hprefix : fs.take l.chan.written.length = l.chan.written := by
    rw [hfs, List.append_assoc, List.take_left]
  have hin : l.chan.written.length ≤ n := by
    by_contra hlt
    have hwlen : l.chan.written.length ≤ fs.length := by
      rw [hfs]
      simp only [List.length_append]
      omega
    have hgt := hnext (by omega)
    have hmono := take_flatten_le (fs.map (execFormat X hX).frameBytes)
      (show n + 1 ≤ l.chan.written.length by omega)
    have hwritten : (fs.map (execFormat X hX).frameBytes).take l.chan.written.length =
        l.chan.written.map (execFormat X hX).frameBytes := by rw [← List.map_take, hprefix]
    have hw := h.whole.length_le
    rw [Format.stream, List.flatMap_def] at hw
    rw [hwritten] at hmono
    omega
  have hread : calls (readExecFrame X) (n + 1) chunks =
      (fs.take n).map (fun f => .ok (some f)) ++ [last] := hcalls
  rw [calls_take _ (by omega : l.chan.written.length ≤ n + 1), hread, List.take_append_of_le_length]
  · rw [← List.map_take, List.take_take, Nat.min_eq_left hin, hprefix]
  · rw [List.length_map, List.length_take]
    omega

/-- The child is given the client's input and nothing else, in every run in which the transport
does not fail while the command runs. -/
theorem child_stdin_exact (X : ExecJson ServeExec) (hX : X.Lawful) (hS : SignalsEncode X)
    (K : Clock I) (timeoutMs : Option Nat) (now : I) (es : List (Ev I)) (w : World I)
    (h : Path (step K X) Up { serve := { loop := start K timeoutMs now } } es w) :
    w.serve.childIn <+: dataOf w.lanes.sent ∧
    (w.serve.loops = true → ∀ chunks : List Bytes, (∀ c ∈ chunks, c ≠ []) →
      chunks.flatten = w.lanes.wire →
      calls (readExecFrame X) w.lanes.chan.written.length chunks =
        w.lanes.chan.written.map fun f => .ok (some f)) ∧
    (w.serve.loops = true → w.serve.childClosed = false → w.serve.pump = .ended →
      ∃ pre i post, w.lanes.sent = pre ++ i :: post ∧ (i = .frame .stdinEof ∨ i = .gone) ∧
        w.serve.childIn = dataOf pre) := by
  have hinv : Inv hX w := inv_run hS h
  refine ⟨?_, fun hl => ?_, fun hl hc hp => ?_⟩
  · rw [← data_input]
    exact hinv.pumped.le.trans (List.IsPrefix.flatMap hinv.le msgData)
  · obtain ⟨fs, done, ahead, hflow, -⟩ := hinv.linked hl
    exact hflow.decodable
  · obtain ⟨fs, done, ahead, -, -, harr, -⟩ := hinv.linked hl
    have hplain : Plain w.serve := by
      rw [Plain, harr]
      simp [ServeInput.Item.terminal]
    obtain ⟨taken, rest, heof, hflow, hdata⟩ := hinv.pumped.closed hl hplain hc hp
    obtain ⟨more, hmore⟩ := hinv.le
    rw [hflow, List.append_assoc, List.cons_append] at hmore
    obtain ⟨pre, i, post, hsent, hi, hpre⟩ := eof_sent hmore.symm heof
    refine ⟨pre, i, post, hsent, hi, ?_⟩
    rw [← hdata, ← hpre, data_input]

end

/-- One byte of input and its end, with an interrupt that overtakes the byte in the daemon. -/
def sampleInput : List (Ev Nat) :=
  [.lanes .opens, .lanes (.adjust 100), .lanes (.client (.frame (.stdinData [104]))),
    .lanes (.client (.frame (.signal .int))), .lanes (.client (.frame .stdinEof)), .lanes .read,
    .lanes .handOver, .lanes .read, .lanes .handOver, .lanes .control, .lanes (.chan .sigRecv),
    .lanes (.chan (.sigRequested true)), .lanes (.chan (.poll .inband)), .lanes (.put 10),
    .lanes (.chan (.wrote .ok)), .lanes (.chan (.poll .stdin)), .lanes (.put 6),
    .lanes (.chan (.wrote .ok)), .lanes .read, .lanes .handOver, .lanes (.chan (.poll .stdin)),
    .lanes (.put 5), .lanes (.chan (.wrote .ok)), .feed 2, .feed 3, .feed 5, .serve .read,
    .serve .handOver, .feed 5, .feed 1, .serve .read, .serve .handOver, .serve .pumpTake,
    .serve (.pumpWrite 1), .serve .pumpWrote, .feed 5, .serve .read, .serve .handOver,
    .serve .pumpTake]

theorem child_stdin_exact_sample :
    ∃ w, run (step sampleClock sampleExec) sampleInput { serve := { loop := start sampleClock none 0 } } =
        some w ∧
      w.serve.childIn = [104] ∧ w.serve.pump = .ended ∧
      w.serve.childIn <+: dataOf w.lanes.sent ∧
      (w.serve.loops = true → ∀ chunks : List Bytes, (∀ c ∈ chunks, c ≠ []) →
        chunks.flatten = w.lanes.wire →
        calls (readExecFrame sampleExec) w.lanes.chan.written.length chunks =
          w.lanes.chan.written.map fun f => .ok (some f)) ∧
      (w.serve.loops = true → w.serve.childClosed = false → w.serve.pump = .ended →
        ∃ pre i post, w.lanes.sent = pre ++ i :: post ∧ (i = .frame .stdinEof ∨ i = .gone) ∧
          w.serve.childIn = dataOf pre) := by
  refine ⟨_, rfl, rfl, rfl, child_stdin_exact sampleExec sampleExec_lawful sampleExec_signals
    sampleClock none 0 sampleInput _ (path_of_run_all ?_ rfl)⟩
  intro e he u _
  refine ⟨?_, ?_⟩
  · rintro rfl
    simp [sampleInput] at he
  · rintro rfl
    simp [sampleInput] at he

end ShellProxy.StdinPath
