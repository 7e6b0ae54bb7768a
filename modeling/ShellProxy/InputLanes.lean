import ShellProxy.Interrupts
import ShellProxy.FrameStream

/-! Input of one execution in the daemon: the reader of the client's frames, the lanes between it,
the loop of `handle_exec` and the engine, and the window of the SSH channel. -/
namespace ShellProxy.InputLanes
open Frame Codec EventStream Machine ExecChannel

def ctrlCap : Nat := 16
def outCap : Nat := 256

/-- Control frames, with what the reader says of the end of the client's stream. -/
inductive CtrlEvent where
  | signal (s : Signal)
  | ping
  | clientGone
  | fatal (m : String)
  deriving DecidableEq, Repr

/-- What `read_exec_frame` returns on the client's connection. -/
inductive Item where
  | frame (f : ExecFrame ExecRequest)
  | gone
  | bad (e : String)
  deriving DecidableEq, Repr

/-- Where the frame reader is: reading, or awaiting a send. After the EOF of a client that has
gone it has the event to send. -/
inductive Reader where
  | reading
  | stdin (e : StdinEvent) (gone : Bool)
  | ctrl (c : CtrlEvent)
  | ended
  deriving DecidableEq, Repr

/-- The loop of `handle_exec`: in its select, inside the pong, or past it. -/
inductive Main where
  | selecting | ponging | ended
  deriving DecidableEq, Repr

/-- `sent` is all that the client has written, `pipe` what is unread of it, `handled` the control
events the loop has taken. `wire` are the bytes behind the Exec frame that entered the window of
the channel, `rest` those of the current write that did not yet. -/
structure Lanes where
  sent : List Item := []
  pipe : List Item := []
  reader : Reader := .reading
  ctrl : List CtrlEvent := []
  ctrlOpen : Bool := true
  handled : List CtrlEvent := []
  main : Main := .selecting
  out : Nat := 0
  outRx : Bool := true
  opened : Bool := false
  chan : Chan := ExecChannel.opened
  stdinRx : Bool := true
  window : Nat := 0
  rest : Bytes := []
  wire : Bytes := []

inductive Ev where
  | client (i : Item)
  | read
  | handOver
  | control
  | ctrlNone
  | ponged
  | emit
  | drain
  | writerGone
  | settle
  | opens
  | chan (e : ExecChannel.Ev)
  | put (n : Nat)
  | adjust (n : Nat)
  | forwarderGone

namespace Item

def terminal : Item → Bool
  | .frame _ => false
  | .gone | .bad _ => true

def fits : Item → Bool
  | .frame (.stdinData d) => d.length ≤ maxPayload
  | _ => true

def next : Item → Reader
  | .frame (.stdinData d) => .stdin (.data d) false
  | .frame .stdinEof => .stdin .eof false
  | .frame (.signal s) => .ctrl (.signal s)
  | .frame .ping => .ctrl .ping
  | .frame (.exec _) => .ctrl (.fatal "nested exec on one connection is not supported")
  | .gone => .stdin .eof true
  | .bad e => .ctrl (.fatal e)

end Item

/-- Whether the reader reads on after sending it. -/
def CtrlEvent.goesOn : CtrlEvent → Bool
  | .signal _ | .ping => true
  | .clientGone | .fatal _ => false

variable (X : ExecJson ServeExec)

def encoded : Phase → Option Bytes
  | .writing f => (encodeExecFrame X f).toOption
  | _ => some []

/-- Steps of the engine's tasks. A frame that does not encode ends its write with an error. -/
def chanStep (s : Lanes) : ExecChannel.Ev → Option Lanes
  | .pushSignal _ | .pushStdin _ => none
  | .dropStdin =>
    if s.reader = .ended then (ExecChannel.step s.chan .dropStdin).map fun c => { s with chan := c }
    else none
  | .dropSignals =>
    if s.main = .ended then (ExecChannel.step s.chan .dropSignals).map fun c => { s with chan := c }
    else none
  | .poll b =>
    if s.opened then
      (ExecChannel.step s.chan (.poll b)).map fun c =>
        { s with chan := c, rest := (encoded X c.phase).getD [] }
    else none
  | .wrote r =>
    if r = .ok ∧ ¬ (s.rest = [] ∧ (encoded X s.chan.phase).isSome) then none
    else (ExecChannel.step s.chan (.wrote r)).map fun c => { s with chan := c, rest := [] }
  | e => if s.opened then (ExecChannel.step s.chan e).map fun c => { s with chan := c } else none

def onCtrl (s : Lanes) : CtrlEvent → Lanes
  | .signal sig => { s with chan := Interrupts.trySend s.chan sig }
  | .ping => { s with main := .ponging }
  | .clientGone => s
  | .fatal _ => { s with main := .ended }

def step (s : Lanes) : Ev → Option Lanes
  | .client i =>
    if (s.sent.all fun j => !j.terminal) ∧ i.fits then
      some { s with sent := s.sent ++ [i], pipe := s.pipe ++ [i] }
    else none
  | .read =>
    match s.reader, s.pipe with
    | .reading, i :: rest => some { s with pipe := rest, reader := i.next }
    | _, _ => none
  | .handOver =>
    match s.reader with
    | .stdin e gone =>
      if s.stdinRx then
        (ExecChannel.step s.chan (.pushStdin e)).map fun c => { s with
          chan := c
          reader := if gone then .ctrl .clientGone else .reading }
      else some { s with reader := if gone then .ctrl .clientGone else .ended }
    | .ctrl c =>
      if s.ctrl.length < ctrlCap then
        some { s with ctrl := s.ctrl ++ [c], reader := if c.goesOn then .reading else .ended }
      else none
    | _ => none
  | .control =>
    match s.main, s.ctrl with
    | .selecting, c :: rest =>
      if s.ctrlOpen then some (onCtrl { s with ctrl := rest, handled := s.handled ++ [c] } c) else none
    | _, _ => none
  | .ctrlNone =>
    if s.main = .selecting ∧ s.ctrl = [] ∧ s.reader = .ended then some { s with ctrlOpen := false }
    else none
  | .ponged =>
    if s.main = .ponging ∧ (s.outRx = false ∨ s.out < outCap) then
      some { s with main := .selecting, out := if s.outRx then s.out + 1 else s.out }
    else none
  -- frames of the bridge enter the lane to the client, its writer takes them out
  | .emit => if s.outRx ∧ s.out < outCap then some { s with out := s.out + 1 } else none
  | .drain => if 0 < s.out then some { s with out := s.out - 1 } else none
  | .writerGone => some { s with outRx := false }
  -- the engine has an outcome, or the watchdog fires
  | .settle => if s.main = .selecting then some { s with main := .ended } else none
  | .opens => some { s with opened := true }
  | .chan e => chanStep X s e
  | .put n =>
    if 0 < n ∧ n ≤ s.rest.length ∧ n ≤ s.window then
      some { s with
        wire := s.wire ++ s.rest.take n
        rest := s.rest.drop n
        window := s.window - n }
    else none
  | .adjust n => some { s with window := s.window + n }
  -- its receiver goes with the forwarder, which ends behind the channel close
  | .forwarderGone =>
    if s.chan.phase = .closing then some { s with stdinRx := false } else none

/-- The daemon's own steps: not the client, not the remote side, and the channel does not fail. -/
def Local (_ : Lanes) : Ev → Prop
  | .read | .handOver | .control | .ctrlNone | .ponged | .put _ | .forwarderGone => True
  | .chan e => e ≠ .fire ∧ e ≠ .wrote .err
  | _ => False

/-- The control events that what the reader holds will lead to. -/
def held : Reader → List CtrlEvent
  | .ctrl c => [c]
  | .stdin _ true => [.clientGone]
  | _ => []

def heldStdin : Reader → List StdinEvent
  | .stdin e _ => [e]
  | _ => []

def Item.ctrl (i : Item) : List CtrlEvent := held i.next
def Item.stdin (i : Item) : List StdinEvent := heldStdin i.next

/-- Control events ahead of what is behind `pre` in the pipe. -/
def ctrlAhead (s : Lanes) (pre : List Item) : List CtrlEvent :=
  s.ctrl ++ (held s.reader ++ pre.flatMap Item.ctrl)

/-- Stdin events that the reader has to hand over before it. -/
def stdinAhead (s : Lanes) (pre : List Item) : List StdinEvent :=
  heldStdin s.reader ++ pre.flatMap Item.stdin

/-- What the window is charged for a frame. -/
def size (f : ExecFrame ServeExec) : Nat := ((encoded X (.writing f)).getD []).length

def stdinFrame : StdinEvent → ExecFrame ServeExec
  | .data d => .stdinData d
  | .eof => .stdinEof

/-- Of the events `q` those that have to be written before the others fit in the lane, where the
forwarder takes one more. -/
def overflow (q : List StdinEvent) : List StdinEvent := q.take (q.length - stdinCap - 1)

/-- The forwarder can make room for the events `q` within the window it has. -/
structure Drains (s : Lanes) (q : List StdinEvent) : Prop where
  opened : s.opened = true
  phase : s.chan.phase ≠ .closing ∧ s.chan.phase ≠ .writing .stdinEof
  stdinOpen : s.chan.stdinOpen = true
  data : ∀ e ∈ overflow q, e ≠ .eof
  window : s.rest.length + (s.chan.inband.map fun sig => size X (.signal sig)).sum +
    ((overflow q).map fun e => size X (stdinFrame e)).sum ≤ s.window

/-- The daemon gets past the control events `cs` and the stdin events `q` by itself: none of them
ends the reader or the loop, the pongs fit in the lane to the client, and the stdin events fit in
their lane or the forwarder can make room for them. -/
structure Clear (s : Lanes) (cs : List CtrlEvent) (q : List StdinEvent) : Prop where
  running : s.main ≠ .ended
  listens : s.chan.sender ≠ .exited
  plain : ∀ c ∈ cs, c.goesOn = true
  pongs : s.outRx = true → s.out + cs.count .ping + (if s.main = .ponging then 1 else 0) ≤ outCap
  fits : q ≠ [] → s.stdinRx = true ∧
    (s.chan.stdin.length + q.length ≤ stdinCap ∨ Drains X s (s.chan.stdin ++ q))

/-- By its own steps the daemon gets to where the interrupt is the next event the loop takes, and
this puts it on the signal lane, or drops it because that lane is full. -/
def GetsThrough (s : Lanes) (pre : List Item) : Prop :=
  ∃ es t u rest, Path (step X) Local s es t ∧ t.main = .selecting ∧
    t.handled = s.handled ++ ctrlAhead s pre ∧ t.ctrl = .signal .int :: rest ∧
    step X t .control = some u ∧
    (u.chan.signals = t.chan.signals ++ [.int] ∨
      signalCap ≤ t.chan.signals.length ∧ u.chan = t.chan)

/-- Serialising a signal does not fail, and its text is short. -/
def SignalsEncode {E : Type} (X : ExecJson E) : Prop :=
  ∀ s, ∃ p, X.signal.toVec s = .ok p ∧ p.length ≤ maxPayload

def Fine : StdinEvent → Prop
  | .data d => d.length ≤ maxPayload
  | .eof => True

/-- Facts of every reachable state. -/
structure Sane (s : Lanes) : Prop where
  tx : s.chan.stdinTx = false → s.reader = .ended
  sigTx : s.chan.signalsTx = false → s.main = .ended
  ctrl : s.ctrlOpen = false → s.ctrl = [] ∧ s.reader = .ended
  lane : ∀ e ∈ s.chan.stdin, Fine e
  reader : ∀ e ∈ heldStdin s.reader, Fine e
  pipe : ∀ i ∈ s.pipe, i.fits = true
  writes : (encoded X s.chan.phase).isSome = true

section
variable {X} {s u : Lanes}

theorem encode_data {d : Bytes} (h : d.length ≤ maxPayload) :
    encodeExecFrame X (.stdinData d) = .ok (ExecKind.stdinData.toByte :: leBytes d.length ++ d) := by
  have hl : d.length < 2 ^ 32 := by
    unfold maxPayload at h
    omega
  simp only [encodeExecFrame, execPayload, bind, Except.bind, encodeRaw,
    frameHeader_ok ExecKind.stdinData.toByte hl]
  rfl

theorem encoded_frame (hX : SignalsEncode X) {e : StdinEvent} (h : Fine e) (sig : Signal) :
    (encoded X (.writing (stdinFrame e))).isSome = true ∧
      (encoded X (.writing (.signal sig))).isSome = true := by
  constructor
  · cases e with
    | data d =>
      simp only [encoded, stdinFrame, encode_data h]
      rfl
    | eof => rfl
  · obtain ⟨p, hp, hl⟩ := hX sig
    have hl' : p.length < 2 ^ 32 := by
      unfold maxPayload at hl
      omega
    simp only [encoded, encodeExecFrame, execPayload, toVec, hp, Except.mapError, Except.map, bind,
      Except.bind, encodeRaw, frameHeader_ok ExecKind.signal.toByte hl']
    rfl

theorem relay_keeps (c : Chan) (sig : Signal) : (c.relay sig).stdin = c.stdin ∧
    (c.relay sig).phase = c.phase ∧ (c.relay sig).fired = c.fired ∧
    (c.relay sig).written = c.written ∧ (c.relay sig).stdinTx = c.stdinTx ∧
    (c.relay sig).signalsTx = c.signalsTx := by
  unfold Chan.relay
  split <;> exact ⟨rfl, rfl, rfl, rfl, rfl, rfl⟩

theorem chan_keeps {c d : Chan} {e : ExecChannel.Ev} (hs : ExecChannel.step c e = some d)
    (he : ∀ x, e ≠ .pushStdin x) :
    (∀ x ∈ d.stdin, x ∈ c.stdin) ∧ (e ≠ .dropStdin → d.stdinTx = c.stdinTx) ∧
      (e ≠ .dropSignals → d.signalsTx = c.signalsTx) ∧
      (d.phase = c.phase ∨ d.phase = .top ∨ d.phase = .closing ∨
        (∃ x ∈ c.stdin, d.phase = .writing (stdinFrame x)) ∨ ∃ sig, d.phase = .writing (.signal sig)) := by
  cases e with
  | pushStdin x => exact absurd rfl (he x)
  | pushSignal sig | sigNone | sigStop =>
    simp only [ExecChannel.step, Option.ite_none_right_eq_some, Option.some.injEq] at hs
    obtain ⟨-, rfl⟩ := hs
    exact ⟨fun _ h => h, fun _ => rfl, fun _ => rfl, .inl rfl⟩
  | dropSignals | fire =>
    simp only [ExecChannel.step, Option.some.injEq] at hs
    subst hs
    exact ⟨fun _ h => h, fun _ => rfl, fun h => by first | rfl | exact absurd rfl h, .inl rfl⟩
  | dropStdin =>
    simp only [ExecChannel.step, Option.some.injEq] at hs
    subst hs
    exact ⟨fun _ h => h, fun h => absurd rfl h, fun _ => rfl, .inl rfl⟩
  | sigRecv =>
    simp only [ExecChannel.step] at hs
    split at hs
    · split at hs
      · cases hs
        exact ⟨fun _ h => h, fun _ => rfl, fun _ => rfl, .inl rfl⟩
      · rename_i sig rest _ _ _
        cases hs
        obtain ⟨hstdin, hphase, -, -, htx, hsig⟩ := relay_keeps { c with signals := rest } sig
        exact ⟨fun _ h => hstdin ▸ h, fun _ => htx, fun _ => hsig, .inl hphase⟩
    · cases hs
  | sigRequested ok =>
    simp only [ExecChannel.step] at hs
    split at hs
    · rename_i sig _
      cases hs
      obtain ⟨hstdin, hphase, -, -, htx, hsig⟩ := relay_keeps
        { c with sender := .waiting, requests := if ok then c.requests ++ [sig] else c.requests } sig
      exact ⟨fun _ h => hstdin ▸ h, fun _ => htx, fun _ => hsig, .inl hphase⟩
    · cases hs
  | poll b =>
    simp only [ExecChannel.step, Option.ite_none_right_eq_some, Option.some.injEq] at hs
    obtain ⟨⟨ht, -⟩, rfl⟩ := hs
    cases b with
    | shutdown => exact ⟨fun _ h => h, fun _ => rfl, fun _ => rfl, .inr (.inr (.inl rfl))⟩
    | inband =>
      simp only [Chan.take]
      split
      · exact ⟨fun _ h => h, fun _ => rfl, fun _ => rfl, .inr (.inr (.inr (.inr ⟨_, rfl⟩)))⟩
      · split
        · exact ⟨fun _ h => h, fun _ => rfl, fun _ => rfl, .inl rfl⟩
        · exact ⟨fun _ h => h, fun _ => rfl, fun _ => rfl, .inr (.inr (.inl rfl))⟩
    | stdin =>
      simp only [Chan.take]
      split
      · rename_i d rest hq
        exact ⟨fun _ h => by rw [hq]; exact List.mem_cons_of_mem _ h, fun _ => rfl, fun _ => rfl,
          .inr (.inr (.inr (.inl ⟨.data d, by simp [hq], rfl⟩)))⟩
      · rename_i rest hq
        exact ⟨fun _ h => by rw [hq]; exact List.mem_cons_of_mem _ h, fun _ => rfl, fun _ => rfl,
          .inr (.inr (.inr (.inl ⟨.eof, by simp [hq], rfl⟩)))⟩
      · exact ⟨fun _ h => h, fun _ => rfl, fun _ => rfl, .inl rfl⟩
  | wrote r =>
    simp only [ExecChannel.step] at hs
    split at hs
    · rename_i f _
      split at hs
      · cases hs
      · cases hs
        cases r with
        | ok => exact ⟨fun _ h => h, fun _ => rfl, fun _ => rfl, .inr (.inl rfl)⟩
        | cancelled => exact ⟨fun _ h => h, fun _ => rfl, fun _ => rfl, .inr (.inr (.inl rfl))⟩
        | err =>
          simp only [Chan.afterWrite]
          split
          · exact ⟨fun _ h => h, fun _ => rfl, fun _ => rfl, .inr (.inl rfl)⟩
          · exact ⟨fun _ h => h, fun _ => rfl, fun _ => rfl, .inr (.inr (.inl rfl))⟩
    · cases hs

/-- A step of the engine's tasks changes the channel, the current write and nothing else. -/
theorem chanStep_spec {e : ExecChannel.Ev} (hs : chanStep X s e = some u) :
    ∃ c rest, ExecChannel.step s.chan e = some c ∧ u = { s with chan := c, rest := rest } ∧
      (∀ x, e ≠ .pushStdin x) ∧ (e = .dropStdin → s.reader = .ended) ∧
      (e = .dropSignals → s.main = .ended) ∧
      (∀ b, e = .poll b → rest = (encoded X c.phase).getD []) ∧
      (∀ r, e = .wrote r → rest = [] ∧ (r = .ok → s.rest = [])) ∧
      ((∀ b, e ≠ .poll b) → (∀ r, e ≠ .wrote r) → rest = s.rest) := by
  cases e with
  | pushSignal sig | pushStdin x => cases hs
  | dropStdin | dropSignals =>
    simp only [chanStep, Option.ite_none_right_eq_some, Option.map_eq_some_iff] at hs
    obtain ⟨hc, c, hstep, rfl⟩ := hs
    exact ⟨c, s.rest, hstep, rfl, by simp, fun _ => by first | exact hc | contradiction,
      fun _ => by first | exact hc | contradiction, by simp, by simp, fun _ _ => rfl⟩
  | poll b =>
    simp only [chanStep, Option.ite_none_right_eq_some, Option.map_eq_some_iff] at hs
    obtain ⟨-, c, hstep, rfl⟩ := hs
    exact ⟨c, _, hstep, rfl, by simp, by simp, by simp, fun _ _ => rfl, by simp,
      fun h => absurd rfl (h b)⟩
  | wrote r =>
    simp only [chanStep] at hs
    split at hs
    · cases hs
    · rename_i hc
      obtain ⟨c, hstep, rfl⟩ := Option.map_eq_some_iff.mp hs
      refine ⟨c, [], hstep, rfl, by simp, by simp, by simp, by simp, fun r' hr => ⟨rfl, ?_⟩,
        fun _ h => absurd rfl (h r)⟩
      rintro rfl
      cases hr
      exact (not_not.mp fun hn => hc ⟨rfl, hn⟩).1
  | fire | sigRecv | sigNone | sigRequested ok | sigStop =>
    simp only [chanStep, Option.ite_none_right_eq_some, Option.map_eq_some_iff] at hs
    obtain ⟨-, c, hstep, rfl⟩ := hs
    exact ⟨c, s.rest, hstep, rfl, by simp, by simp, by simp, by simp, by simp, fun _ _ => rfl⟩

theorem fine_next {i : Item} (h : i.fits = true) : ∀ e ∈ heldStdin i.next, Fine e := by
  cases i with
  | frame f =>
    cases f with
    | stdinData d => simpa [Item.next, heldStdin, Fine, Item.fits] using h
    | stdinEof => simp [Item.next, heldStdin, Fine]
    | exec req | signal sig | ping => simp [Item.next, heldStdin]
  | gone => simp [Item.next, heldStdin, Fine]
  | bad e => simp [Item.next, heldStdin]

theorem trySend_keeps (c : Chan) (sig : Signal) :
    ∃ l, Interrupts.trySend c sig = { c with signals := l } := by
  unfold Interrupts.trySend
  cases h : ExecChannel.step c (.pushSignal sig) with
  | none => exact ⟨c.signals, rfl⟩
  | some d =>
    obtain ⟨-, hs⟩ := Option.ite_none_right_eq_some.mp h
    exact ⟨_, (Option.some.inj hs).symm⟩

theorem sane_init : Sane X {} where
  tx h := by cases h
  sigTx h := by cases h
  ctrl h := by cases h
  lane := by simp [ExecChannel.opened]
  reader := by simp [heldStdin]
  pipe := by simp
  writes := rfl

theorem sane_chan (hX : SignalsEncode X) (h : Sane X s) {e : ExecChannel.Ev}
    (hs : chanStep X s e = some u) : Sane X u := by
  obtain ⟨c, rest, hstep, rfl, hpush, hstdin, hsig, -⟩ := chanStep_spec hs
  obtain ⟨hlane, htx, hstx, hphase⟩ := chan_keeps hstep hpush
  constructor
  · intro hc
    by_cases he : e = .dropStdin
    · exact hstdin he
    · exact h.tx ((htx he).symm.trans hc)
  · intro hc
    by_cases he : e = .dropSignals
    · exact hsig he
    · exact h.sigTx ((hstx he).symm.trans hc)
  · exact h.ctrl
  · exact fun x hx => h.lane x (hlane x hx)
  · exact h.reader
  · exact h.pipe
  · rcases hphase with hp | hp | hp | ⟨x, hx, hp⟩ | ⟨sig, hp⟩
    · rw [hp]
      exact h.writes
    · rw [hp]
      rfl
    · rw [hp]
      rfl
    · rw [hp]
      exact (encoded_frame hX (h.lane x hx) .int).1
    · rw [hp]
      exact (encoded_frame hX (e := .eof) trivial sig).2

theorem sane_handOver (h : Sane X s) (hs : step X s .handOver = some u) : Sane X u := by
  cases hr : s.reader with
  | reading | ended => simp [step, hr] at hs
  | ctrl c =>
    simp only [step, hr, Option.ite_none_right_eq_some, Option.some.injEq] at hs
    obtain ⟨-, rfl⟩ := hs
    refine ⟨fun ht => ?_, h.sigTx, fun hc => ?_, h.lane, ?_, h.pipe, h.writes⟩
    · have he := h.tx ht
      rw [hr] at he
      cases he
    · have he := (h.ctrl hc).2
      rw [hr] at he
      cases he
    · cases c.goesOn <;> simp [heldStdin]
  | stdin e gone =>
    have hopen : s.ctrlOpen ≠ false := fun hc => by
      have he := (h.ctrl hc).2
      rw [hr] at he
      cases he
    have htx : s.chan.stdinTx ≠ false := fun ht => by
      have he := h.tx ht
      rw [hr] at he
      cases he
    have hfine : Fine e := h.reader e (by simp [hr, heldStdin])
    simp only [step, hr] at hs
    by_cases hrx : s.stdinRx = true
    · rw [if_pos hrx, Option.map_eq_some_iff] at hs
      obtain ⟨c, hc, rfl⟩ := hs
      simp only [ExecChannel.step, Option.ite_none_right_eq_some, Option.some.injEq] at hc
      obtain ⟨-, rfl⟩ := hc
      refine ⟨fun ht => absurd ht htx, h.sigTx, fun hc => absurd hc hopen, ?_, ?_, h.pipe, h.writes⟩
      · exact List.forall_mem_append.mpr ⟨h.lane, List.forall_mem_singleton.mpr hfine⟩
      · cases gone <;> simp [heldStdin]
    · rw [if_neg hrx, Option.some.injEq] at hs
      subst hs
      refine ⟨fun ht => absurd ht htx, h.sigTx, fun hc => absurd hc hopen, h.lane, ?_, h.pipe,
        h.writes⟩
      cases gone <;> simp [heldStdin]

theorem sane_control (h : Sane X s) (hs : step X s .control = some u) : Sane X u := by
  cases hm : s.main with
  | ponging | ended => simp [step, hm] at hs
  | selecting =>
    cases hc : s.ctrl with
    | nil => simp [step, hm, hc] at hs
    | cons c rest =>
      simp only [step, hm, hc, Option.ite_none_right_eq_some, Option.some.injEq] at hs
      obtain ⟨hopen, rfl⟩ := hs
      have hsig : s.chan.signalsTx ≠ false := fun hf => by
        have ho := h.sigTx hf
        rw [hm] at ho
        cases ho
      cases c with
      | signal sig =>
        obtain ⟨l, hl⟩ := trySend_keeps s.chan sig
        simp only [onCtrl, hl]
        exact ⟨h.tx, fun hf => absurd hf hsig, fun hf => by simp [hopen] at hf, h.lane, h.reader,
          h.pipe, h.writes⟩
      | ping | clientGone | fatal m =>
        exact ⟨h.tx, fun hf => absurd hf hsig, fun hf => by simp [onCtrl, hopen] at hf, h.lane,
          h.reader, h.pipe, h.writes⟩

theorem sane_step (hX : SignalsEncode X) (h : Sane X s) {e : Ev} (hs : step X s e = some u) :
    Sane X u := by
  cases e with
  | handOver => exact sane_handOver h hs
  | control => exact sane_control h hs
  | chan e => exact sane_chan hX h hs
  | client i =>
    simp only [step, Option.ite_none_right_eq_some, Option.some.injEq] at hs
    obtain ⟨⟨-, hf⟩, rfl⟩ := hs
    exact { h with
      pipe := List.forall_mem_append.mpr ⟨h.pipe, List.forall_mem_singleton.mpr hf⟩ }
  | read =>
    cases hr : s.reader with
    | stdin e gone | ctrl c | ended => simp [step, hr] at hs
    | reading =>
      cases hp : s.pipe with
      | nil => simp [step, hr, hp] at hs
      | cons i rest =>
        simp only [step, hr, hp, Option.some.injEq] at hs
        subst hs
        have hfits : ∀ j ∈ i :: rest, j.fits = true := hp ▸ h.pipe
        refine ⟨fun ht => ?_, h.sigTx, fun hc => ?_, h.lane, fine_next (hfits i List.mem_cons_self),
          fun j hj => hfits j (List.mem_cons_of_mem i hj), h.writes⟩
        · have he := h.tx ht
          rw [hr] at he
          cases he
        · have he := (h.ctrl hc).2
          rw [hr] at he
          cases he
  | ctrlNone =>
    simp only [step, Option.ite_none_right_eq_some, Option.some.injEq] at hs
    obtain ⟨⟨-, hc, hr⟩, rfl⟩ := hs
    exact { h with ctrl := fun _ => ⟨hc, hr⟩ }
  | ponged =>
    simp only [step, Option.ite_none_right_eq_some, Option.some.injEq] at hs
    obtain ⟨⟨hm, -⟩, rfl⟩ := hs
    refine { h with sigTx := fun hf => ?_ }
    have ho := h.sigTx hf
    rw [hm] at ho
    cases ho
  | settle =>
    simp only [step, Option.ite_none_right_eq_some, Option.some.injEq] at hs
    obtain ⟨-, rfl⟩ := hs
    exact { h with sigTx := fun _ => rfl }
  | emit | drain | put n | forwarderGone =>
    simp only [step, Option.ite_none_right_eq_some, Option.some.injEq] at hs
    obtain ⟨-, rfl⟩ := hs
    exact { h with }
  | writerGone | opens | adjust n =>
    simp only [step, Option.some.injEq] at hs
    subst hs
    exact { h with }

@[simp] theorem held_reading : held .reading = [] := rfl
@[simp] theorem held_ctrl (c : CtrlEvent) : held (.ctrl c) = [c] := rfl
@[simp] theorem held_stdin (e : StdinEvent) : held (.stdin e false) = [] := rfl
@[simp] theorem heldStdin_reading : heldStdin .reading = [] := rfl
@[simp] theorem heldStdin_ctrl (c : CtrlEvent) : heldStdin (.ctrl c) = [] := rfl
@[simp] theorem heldStdin_stdin (e : StdinEvent) (g : Bool) : heldStdin (.stdin e g) = [e] := rfl

theorem Clear.move {cs : List CtrlEvent} {q : List StdinEvent} (h : Clear X s cs q) (p : List Item)
    (r : Reader) (c hd : List CtrlEvent) :
    Clear X { s with pipe := p, reader := r, ctrl := c, handled := hd } cs q := by
  refine ⟨h.running, h.listens, h.plain, h.pongs, fun hq => ?_⟩
  obtain ⟨hrx, hfit⟩ := h.fits hq
  exact ⟨hrx, hfit.imp id fun hd => ⟨hd.opened, hd.phase, hd.stdinOpen, hd.data, hd.window⟩⟩

theorem Clear.next {c : CtrlEvent} {cs rest hd : List CtrlEvent} {q : List StdinEvent}
    (h : Clear X s (c :: cs) q) (hm : s.main = .selecting) :
    Clear X (onCtrl { s with ctrl := rest, handled := hd } c) cs q := by
  have hplain : ∀ x ∈ cs, x.goesOn = true := fun x hx => h.plain x (List.mem_cons_of_mem c hx)
  have hpongs := h.pongs
  simp only [hm, List.count_cons, reduceCtorEq, if_false, Nat.add_zero] at hpongs
  cases c with
  | signal sig =>
    obtain ⟨l, hl⟩ := trySend_keeps s.chan sig
    simp only [onCtrl, hl]
    refine ⟨h.running, h.listens, hplain, fun hx => ?_, fun hq => ?_⟩
    · have hle := hpongs hx
      simp only [hm, reduceCtorEq, if_false]
      simp at hle
      omega
    · obtain ⟨hrx, hfit⟩ := h.fits hq
      refine ⟨hrx, hfit.imp id fun hd => ?_⟩
      exact ⟨hd.opened, hd.phase, hd.stdinOpen, hd.data, hd.window⟩
  | ping =>
    refine ⟨fun hx => (by cases hx), h.listens, hplain, fun hx => ?_, fun hq => ?_⟩
    · have hle := hpongs hx
      simp only [onCtrl, if_true]
      simp at hle
      omega
    · obtain ⟨hrx, hfit⟩ := h.fits hq
      refine ⟨hrx, hfit.imp id fun hd => ?_⟩
      exact ⟨hd.opened, hd.phase, hd.stdinOpen, hd.data, hd.window⟩
  | clientGone | fatal m =>
    have hno := h.plain _ List.mem_cons_self
    cases hno

def readerWork : Reader → Nat
  | .stdin _ _ => 6
  | .ctrl _ => 4
  | .reading | .ended => 0

def writeWork : Phase → Bytes → Nat
  | .writing _, [] => 1
  | .writing _, _ => 2
  | _, _ => 0

/-- Steps the daemon has still to make, counted for each place of each frame. -/
def work (s : Lanes) : Nat :=
  7 * s.pipe.length + readerWork s.reader + 2 * s.ctrl.length +
    (if s.main = .ponging then 1 else 0) +
    (4 * s.chan.stdin.length + 3 * s.chan.inband.length + writeWork s.chan.phase s.rest)

theorem writeWork_le (p : Phase) (b : Bytes) : writeWork p b ≤ 2 := by
  cases p with
  | writing f => cases b <;> simp [writeWork]
  | top | closing => simp [writeWork]

theorem overflow_cons {e : StdinEvent} {q : List StdinEvent} (h : stdinCap < q.length) :
    overflow (e :: q) = e :: overflow q := by
  unfold overflow
  rw [List.length_cons, show q.length + 1 - stdinCap - 1 = (q.length - stdinCap - 1) + 1 by omega,
    List.take_succ_cons]

variable (X) in
/-- Some step of the forwarder keeps what is ahead clear and leaves less to do. -/
def Drained (s : Lanes) (cs : List CtrlEvent) (q : List StdinEvent) : Prop :=
  ∃ e c rest window wire, Local s e ∧
    step X s e = some { s with chan := c, rest := rest, window := window, wire := wire } ∧
    Clear X { s with chan := c, rest := rest, window := window, wire := wire } cs q ∧
    work { s with chan := c, rest := rest, window := window, wire := wire } < work s

section
variable {cs : List CtrlEvent} {q : List StdinEvent}

theorem put_goes {f : ExecFrame ServeExec} (h : Clear X s cs q) (hrx : s.stdinRx = true)
    (hd : Drains X s (s.chan.stdin ++ q)) (hp : s.chan.phase = .writing f) (hr : s.rest ≠ []) :
    Drained X s cs q := by
  have hw := hd.window
  have hwin : s.rest.length ≤ s.window := by omega
  have hpos : 0 < s.rest.length := List.length_pos_of_ne_nil hr
  refine ⟨.put s.rest.length, s.chan, s.rest.drop s.rest.length, s.window - s.rest.length, _,
    trivial, by simp only [step, if_pos (⟨hpos, Nat.le_refl _, hwin⟩ : _ ∧ _ ∧ _)]; rfl, ?_, ?_⟩
  · refine ⟨h.running, h.listens, h.plain, h.pongs, fun _ => ⟨hrx, .inr ?_⟩⟩
    refine ⟨hd.opened, hd.phase, hd.stdinOpen, hd.data, ?_⟩
    simp only [List.drop_length, List.length_nil]
    omega
  · obtain ⟨b, bs, hr⟩ := List.exists_cons_of_ne_nil hr
    simp only [work, hp, List.drop_length, hr, writeWork]
    omega

theorem wrote_goes {f : ExecFrame ServeExec} (h : Clear X s cs q) (hsane : Sane X s)
    (hrx : s.stdinRx = true) (hd : Drains X s (s.chan.stdin ++ q))
    (hp : s.chan.phase = .writing f) (hr : s.rest = []) : Drained X s cs q := by
  have hf : f ≠ .stdinEof := fun he => hd.phase.2 (by rw [hp, he])
  refine ⟨.chan (.wrote .ok), s.chan.afterWrite f .ok, [], s.window, s.wire,
    ⟨by simp, by simp⟩, ?_, ?_, ?_⟩
  · have hsome := hsane.writes
    simp [step, chanStep, ExecChannel.step, hp, hr]
    rw [hp] at hsome
    exact Option.isSome_iff_ne_none.mp hsome
  · refine ⟨h.running, h.listens, h.plain, h.pongs, fun _ => ⟨hrx, .inr ?_⟩⟩
    refine ⟨hd.opened, ⟨by simp [Chan.afterWrite], by simp [Chan.afterWrite]⟩, ?_, hd.data, ?_⟩
    · simp [Chan.afterWrite, hd.stdinOpen, hf]
    · have hw := hd.window
      rw [hr] at hw
      exact hw
  · simp [work, hp, hr, writeWork, Chan.afterWrite]

theorem inband_goes {sig : Signal} {sigs : List Signal} (h : Clear X s cs q)
    (hrx : s.stdinRx = true) (hd : Drains X s (s.chan.stdin ++ q)) (hp : s.chan.phase = .top)
    (hi : s.chan.inband = sig :: sigs) : Drained X s cs q := by
  have hw := hd.window
  refine ⟨.chan (.poll .inband), { s.chan with inband := sigs, phase := .writing (.signal sig) },
    (encoded X (.writing (.signal sig))).getD [], s.window, s.wire, ⟨by simp, by simp⟩, ?_, ?_, ?_⟩
  · simp [step, chanStep, hd.opened, ExecChannel.step, hp, Chan.picks, Chan.ready, hi, Chan.take]
  · refine ⟨h.running, h.listens, h.plain, h.pongs, fun _ => ⟨hrx, .inr ?_⟩⟩
    refine ⟨hd.opened, ⟨by simp, by simp⟩, hd.stdinOpen, hd.data, ?_⟩
    rw [hi] at hw
    simp only [List.map_cons, List.sum_cons, size] at hw ⊢
    omega
  · have hle := writeWork_le (.writing (.signal sig)) ((encoded X (.writing (.signal sig))).getD [])
    simp only [work, hi, List.length_cons]
    omega

theorem stdin_goes {e : StdinEvent} {lane : List StdinEvent} (h : Clear X s cs q)
    (hrx : s.stdinRx = true) (hd : Drains X s (s.chan.stdin ++ q)) (hp : s.chan.phase = .top)
    (hi : s.chan.inband = []) (hl : s.chan.stdin = e :: lane) : Drained X s cs q := by
  have hw := hd.window
  refine ⟨.chan (.poll .stdin), { s.chan with stdin := lane, phase := .writing (stdinFrame e) },
    (encoded X (.writing (stdinFrame e))).getD [], s.window, s.wire, ⟨by simp, by simp⟩, ?_, ?_, ?_⟩
  · have hx : (s.chan.sender == .exited) = false := by simpa using h.listens
    have hpick : s.chan.picks .stdin = true := by
      simp [Chan.picks, Chan.ready, hi, hl, hd.stdinOpen, hx]
    have htake : s.chan.take .stdin =
        { s.chan with stdin := lane, phase := .writing (stdinFrame e) } := by
      cases e <;> simp [Chan.take, hl, stdinFrame]
    simp [step, chanStep, hd.opened, ExecChannel.step, hp, hpick, htake]
  · refine ⟨h.running, h.listens, h.plain, h.pongs, fun _ => ⟨hrx, ?_⟩⟩
    by_cases hmore : stdinCap < (lane ++ q).length
    · right
      have hover : overflow (s.chan.stdin ++ q) = e :: overflow (lane ++ q) := by
        rw [hl, List.cons_append, overflow_cons hmore]
      have hdata := hd.data
      rw [hover, List.forall_mem_cons] at hdata
      rw [hover] at hw
      refine ⟨hd.opened, ⟨by simp, ?_⟩, hd.stdinOpen, hdata.2, ?_⟩
      · cases e with
        | data d => simp [stdinFrame]
        | eof => exact absurd rfl hdata.1
      · simp only [List.map_cons, List.sum_cons, size, hi] at hw ⊢
        omega
    · left
      rw [List.length_append] at hmore
      exact Nat.le_of_not_lt hmore
  · have hle := writeWork_le (.writing (stdinFrame e)) ((encoded X (.writing (stdinFrame e))).getD [])
    simp only [work, hl, List.length_cons]
    omega

/-- The forwarder moves on where the lane is full: it completes its write, or takes a signal or the
next event of the lane. -/
theorem drain_goes (h : Clear X s cs q) (hsane : Sane X s) (hq : q ≠ [])
    (hfull : ¬ s.chan.stdin.length < stdinCap) : Drained X s cs q := by
  obtain ⟨hrx, hfit⟩ := h.fits hq
  have hlen : 0 < q.length := List.length_pos_of_ne_nil hq
  have hd := hfit.resolve_left (by omega)
  cases hp : s.chan.phase with
  | closing => exact absurd hp hd.phase.1
  | writing f =>
    by_cases hr : s.rest = []
    · exact wrote_goes h hsane hrx hd hp hr
    · exact put_goes h hrx hd hp hr
  | top =>
    cases hi : s.chan.inband with
    | cons sig sigs => exact inband_goes h hrx hd hp hi
    | nil =>
      cases hl : s.chan.stdin with
      | nil =>
        rw [hl] at hfull
        simp [stdinCap] at hfull
      | cons e lane => exact stdin_goes h hrx hd hp hi hl

end

variable (X) in
/-- Where the interrupt is that has the control events `E` before it: in the pipe, in the reader's
hand, or on the control lane. -/
inductive Place (E : List CtrlEvent) (s : Lanes) : Prop where
  | unread (pre post : List Item) : s.pipe = pre ++ .frame (.signal .int) :: post →
      s.reader ≠ .ended → s.handled ++ ctrlAhead s pre = E →
      Clear X s (ctrlAhead s pre) (stdinAhead s pre) → Place E s
  | inHand : s.reader = .ctrl (.signal .int) → s.handled ++ s.ctrl = E → Clear X s s.ctrl [] →
      Place E s
  | queued (cs rest : List CtrlEvent) : s.ctrl = cs ++ .signal .int :: rest →
      s.handled ++ cs = E → Clear X s cs [] → Place E s

def Next (E : List CtrlEvent) (s : Lanes) : Prop :=
  s.main = .selecting ∧ s.handled = E ∧ ∃ rest, s.ctrl = .signal .int :: rest

theorem Clear.pong {cs : List CtrlEvent} {q : List StdinEvent} (h : Clear X s cs q)
    (hm : s.main = .ponging) :
    Clear X { s with main := .selecting, out := if s.outRx then s.out + 1 else s.out } cs q := by
  have hpongs := h.pongs
  simp only [hm, if_true] at hpongs
  refine ⟨by simp, h.listens, h.plain, fun hx => ?_, fun hq => ?_⟩
  · have hx' : s.outRx = true := hx
    have hle := hpongs hx'
    simp only [hx', if_true, reduceCtorEq, if_false]
    omega
  · obtain ⟨hrx, hfit⟩ := h.fits hq
    exact ⟨hrx, hfit.imp id fun hd => ⟨hd.opened, hd.phase, hd.stdinOpen, hd.data, hd.window⟩⟩

theorem pong_goes {E : List CtrlEvent} (h : Place X E s) (hm : s.main = .ponging) :
    ∃ u, step X s .ponged = some u ∧ Place X E u ∧ work u < work s := by
  have hroom : s.outRx = false ∨ s.out < outCap := by
    have hpongs : s.outRx = true → s.out < outCap := by
      intro hx
      cases h with
      | unread pre post _ _ _ hc | inHand _ _ hc | queued cs rest _ _ hc =>
        have hle := hc.pongs hx
        simp only [hm, if_true] at hle
        omega
    cases hx : s.outRx with
    | false => exact .inl rfl
    | true => exact .inr (hpongs hx)
  refine ⟨_, by simp only [step, if_pos (⟨hm, hroom⟩ : _ ∧ _)]; rfl, ?_, ?_⟩
  · cases h with
    | unread pre post hp hr hE hc => exact .unread pre post hp hr hE (hc.pong hm)
    | inHand hr hE hc => exact .inHand hr hE (hc.pong hm)
    | queued cs rest hq hE hc => exact .queued cs rest hq hE (hc.pong hm)
  · simp [work, hm]

theorem Sane.lane_open {c : CtrlEvent} {cs : List CtrlEvent} (h : Sane X s) (hq : s.ctrl = c :: cs) :
    s.ctrlOpen = true := by
  cases ho : s.ctrlOpen with
  | true => rfl
  | false =>
    have hnil := (h.ctrl ho).1
    rw [hq] at hnil
    cases hnil

theorem control_goes {E cs : List CtrlEvent} {c : CtrlEvent} (h : Place X E s) (hsane : Sane X s)
    (hm : s.main = .selecting) (hq : s.ctrl = c :: cs) (hn : ¬ Next E s) :
    ∃ u, step X s .control = some u ∧ Place X E u ∧ work u < work s := by
  have hopen := hsane.lane_open hq
  have hkeeps : ∀ t : Lanes, (onCtrl t c).pipe = t.pipe ∧ (onCtrl t c).reader = t.reader ∧
      (onCtrl t c).handled = t.handled ∧ (onCtrl t c).ctrl = t.ctrl := by
    intro t
    cases c <;> exact ⟨rfl, rfl, rfl, rfl⟩
  obtain ⟨hpipe, hreader, hhandled, hctrl⟩ :=
    hkeeps { s with ctrl := cs, handled := s.handled ++ [c] }
  have hstep : step X s .control =
      some (onCtrl { s with ctrl := cs, handled := s.handled ++ [c] } c) := by
    simp only [step, hm, hq, if_pos hopen]
  refine ⟨_, hstep, ?_, ?_⟩
  · cases h with
    | unread pre post hp hr hE hc =>
      have hahead : ctrlAhead s pre = c :: (cs ++ (held s.reader ++ pre.flatMap Item.ctrl)) := by
        simp [ctrlAhead, hq]
      rw [hahead] at hE hc
      refine .unread pre post (hpipe.trans hp) (by rw [hreader]; exact hr) ?_ ?_
      · rw [hhandled, ctrlAhead, hctrl, hreader]
        simpa using hE
      · rw [ctrlAhead, hctrl, hreader, stdinAhead, hreader]
        exact hc.next hm
    | inHand hr hE hc =>
      rw [hq] at hE hc
      refine .inHand (hreader.trans hr) ?_ ?_
      · rw [hhandled, hctrl]
        simpa using hE
      · rw [hctrl]
        exact hc.next hm
    | queued ds rest hds hE hc =>
      cases ds with
      | nil =>
        rw [List.append_nil] at hE
        exact absurd ⟨hm, hE, rest, hds⟩ hn
      | cons d ds =>
        rw [hq] at hds
        obtain ⟨rfl, hrest⟩ := List.cons.inj hds
        refine .queued ds rest (hctrl.trans hrest) ?_ (hc.next hm)
        rw [hhandled]
        simpa using hE
  · cases c with
    | signal sig =>
      obtain ⟨l, hl⟩ := trySend_keeps s.chan sig
      simp [work, onCtrl, hl, hq, hm]
    | ping =>
      simp only [work, onCtrl, hq, hm, List.length_cons, if_true, reduceCtorEq, if_false]
      omega
    | clientGone | fatal m =>
      simp only [work, onCtrl, hq, hm, List.length_cons, reduceCtorEq, if_false]
      omega

theorem work_next (i : Item) : readerWork i.next < 7 := by
  cases i with
  | frame f => cases f <;> simp [Item.next, readerWork]
  | gone => simp [Item.next, readerWork]
  | bad e => simp [Item.next, readerWork]

variable (X) in
def Goes (E : List CtrlEvent) (s : Lanes) : Prop :=
  ∃ e u, Local s e ∧ step X s e = some u ∧ Place X E u ∧ work u < work s

section
variable {E : List CtrlEvent} {pre post : List Item}

theorem ctrl_handed {c : CtrlEvent} (hp : s.pipe = pre ++ .frame (.signal .int) :: post)
    (hr : s.reader = .ctrl c) (hq : s.ctrl = []) (hE : s.handled ++ ctrlAhead s pre = E)
    (hc : Clear X s (ctrlAhead s pre) (stdinAhead s pre)) : Goes X E s := by
  have hroom : s.ctrl.length < ctrlCap := by simp [hq, ctrlCap]
  have hgoes : c.goesOn = true := hc.plain c (by simp [ctrlAhead, hr])
  have hahead : ctrlAhead s pre = c :: pre.flatMap Item.ctrl := by simp [ctrlAhead, hr, hq]
  have hstdin : stdinAhead s pre = pre.flatMap Item.stdin := by simp [stdinAhead, hr]
  rw [hahead] at hE hc
  rw [hstdin] at hc
  refine ⟨.handOver, _, trivial, by simp only [step, hr, if_pos hroom]; rfl, ?_, ?_⟩
  · refine .unread pre post hp (by simp [hgoes]) ?_ ?_
    · simpa [ctrlAhead, hq, hgoes] using hE
    · simp only [ctrlAhead, stdinAhead, hq, hgoes, if_true, held_reading, heldStdin_reading,
        List.nil_append, List.singleton_append]
      exact hc.move _ _ _ _
  · simp [work, hr, hq, readerWork, hgoes]

theorem frame_read (hp : s.pipe = pre ++ .frame (.signal .int) :: post) (hr : s.reader = .reading)
    (hE : s.handled ++ ctrlAhead s pre = E)
    (hc : Clear X s (ctrlAhead s pre) (stdinAhead s pre)) : Goes X E s := by
  cases pre with
  | nil =>
    refine ⟨.read, _, trivial, by simp only [step, hr, hp]; rfl, ?_, ?_⟩
    · have hnil : ctrlAhead s [] = s.ctrl := by simp [ctrlAhead, hr]
      have hnone : stdinAhead s [] = [] := by simp [stdinAhead, hr]
      rw [hnil] at hE hc
      rw [hnone] at hc
      exact .inHand rfl hE (hc.move _ _ _ _)
    · simp only [work, hr, hp, List.nil_append, List.length_cons, Item.next, readerWork]
      omega
  | cons i pre =>
    have hahead : ctrlAhead s (i :: pre) = s.ctrl ++ (held i.next ++ pre.flatMap Item.ctrl) := by
      simp [ctrlAhead, hr, Item.ctrl]
    have hstdin : stdinAhead s (i :: pre) = heldStdin i.next ++ pre.flatMap Item.stdin := by
      simp [stdinAhead, hr, Item.stdin]
    rw [hahead] at hE hc
    rw [hstdin] at hc
    refine ⟨.read, { s with pipe := pre ++ .frame (.signal .int) :: post, reader := i.next },
      trivial, by simp only [step, hr, hp, List.cons_append], ?_, ?_⟩
    · refine .unread pre post rfl ?_ hE (hc.move _ _ _ _)
      cases i with
      | frame f => cases f <;> simp [Item.next]
      | gone => simp [Item.next]
      | bad e => simp [Item.next]
    · have hw := work_next i
      simp only [work, hp, List.cons_append, List.length_cons]
      omega

theorem stdin_handed {e : StdinEvent} (hsane : Sane X s)
    (hp : s.pipe = pre ++ .frame (.signal .int) :: post) (hr : s.reader = .stdin e false)
    (hE : s.handled ++ ctrlAhead s pre = E)
    (hc : Clear X s (ctrlAhead s pre) (stdinAhead s pre)) : Goes X E s := by
  have hahead : ctrlAhead s pre = s.ctrl ++ pre.flatMap Item.ctrl := by simp [ctrlAhead, hr]
  have hstdin : stdinAhead s pre = e :: pre.flatMap Item.stdin := by simp [stdinAhead, hr]
  have hne : stdinAhead s pre ≠ [] := by simp [hstdin]
  by_cases hlane : s.chan.stdin.length < stdinCap
  · obtain ⟨hrx, hfit⟩ := hc.fits hne
    have htx : s.chan.stdinTx = true := by
      cases ht : s.chan.stdinTx with
      | true => rfl
      | false =>
        have he := hsane.tx ht
        rw [hr] at he
        cases he
    refine ⟨.handOver, { s with
      chan := { s.chan with stdin := s.chan.stdin ++ [e] }, reader := .reading }, trivial, ?_, ?_, ?_⟩
    · simp [step, hr, hrx, ExecChannel.step, htx, hlane]
    · rw [hahead] at hE hc
      rw [hstdin] at hc hfit
      refine .unread pre post hp (by simp) ?_ ?_
      · simpa [ctrlAhead] using hE
      · simp only [ctrlAhead, stdinAhead, held_reading, heldStdin_reading, List.nil_append]
        refine ⟨hc.running, hc.listens, hc.plain, hc.pongs, fun _ => ⟨hrx, ?_⟩⟩
        rcases hfit with hle | hd
        · left
          simp only [List.length_append, List.length_cons, List.length_nil] at hle ⊢
          omega
        · right
          have hq' : s.chan.stdin ++ [e] ++ pre.flatMap Item.stdin =
              s.chan.stdin ++ e :: pre.flatMap Item.stdin := by simp
          exact hq' ▸ ⟨hd.opened, hd.phase, hd.stdinOpen, hd.data, hd.window⟩
    · simp only [work, hr, readerWork, List.length_append, List.length_singleton]
      omega
  · obtain ⟨ev, c, rest, window, wire, hloc, hstep, hc', hlt⟩ := drain_goes hc hsane hne hlane
    exact ⟨ev, _, hloc, hstep, .unread pre post hp (by simp [hr]) hE hc', hlt⟩

/-- With nothing on the control lane the reader moves on, or the forwarder makes room for it. -/
theorem reader_goes (h : Place X E s) (hsane : Sane X s) (hq : s.ctrl = []) : Goes X E s := by
  cases h with
  | queued cs rest hds _ _ => simp [hq] at hds
  | inHand hr hE hc =>
    have hroom : s.ctrl.length < ctrlCap := by simp [hq, ctrlCap]
    refine ⟨.handOver, _, trivial, by simp only [step, hr, if_pos hroom]; rfl, ?_, ?_⟩
    · rw [hq] at hE hc
      exact .queued [] [] (by simp [hq]) hE (hc.move _ _ _ _)
    · simp [work, hr, hq, readerWork, CtrlEvent.goesOn]
  | unread pre post hp hend hE hc =>
    cases hr : s.reader with
    | ended => exact absurd hr hend
    | ctrl c => exact ctrl_handed hp hr hq hE hc
    | reading => exact frame_read hp hr hE hc
    | stdin e gone =>
      cases gone with
      | true =>
        -- the event of a client that has gone ends the reader
        have hno := hc.plain .clientGone (by simp [ctrlAhead, hr, held])
        cases hno
      | false => exact stdin_handed hsane hp hr hE hc

end

theorem Place.listens {E : List CtrlEvent} (h : Place X E s) : s.chan.sender ≠ .exited := by
  cases h with
  | unread pre post _ _ _ hc | inHand _ _ hc | queued cs rest _ _ hc => exact hc.listens

theorem Place.running {E : List CtrlEvent} (h : Place X E s) : s.main ≠ .ended := by
  cases h with
  | unread pre post _ _ _ hc | inHand _ _ hc | queued cs rest _ _ hc => exact hc.running

theorem trySend_hands {c : Chan} (htx : c.signalsTx = true) (hrx : c.sender ≠ .exited)
    (sig : Signal) : (Interrupts.trySend c sig).signals = c.signals ++ [sig] ∨
      signalCap ≤ c.signals.length ∧ Interrupts.trySend c sig = c := by
  unfold Interrupts.trySend
  by_cases hlt : c.signals.length < signalCap
  · left
    simp [ExecChannel.step, htx, hrx, hlt]
  · right
    exact ⟨Nat.le_of_not_lt hlt, by simp [ExecChannel.step, hlt]⟩

theorem next_taken {E : List CtrlEvent} {rest : List CtrlEvent} (hsane : Sane X s)
    (hpl : Place X E s) (hm : s.main = .selecting) (hq : s.ctrl = .signal .int :: rest) :
    ∃ u, step X s .control = some u ∧
      (u.chan.signals = s.chan.signals ++ [.int] ∨
        signalCap ≤ s.chan.signals.length ∧ u.chan = s.chan) := by
  have hopen := hsane.lane_open hq
  have htx : s.chan.signalsTx = true := by
    cases ht : s.chan.signalsTx with
    | true => rfl
    | false => exact absurd (hsane.sigTx ht) hpl.running
  exact ⟨_, by simp only [step, hm, hq, if_pos hopen]; rfl, trySend_hands htx hpl.listens .int⟩

/-- In every reachable state in which the engine runs: an interrupt that stands in the pipe gets
through where the daemon can clear what is ahead of it. -/
theorem interrupt_gets_through (X : ExecJson ServeExec) (hX : SignalsEncode X) (es : List Ev)
    (s : Lanes) (h : Path (step X) Any {} es s) (pre post : List Item)
    (hp : s.pipe = pre ++ .frame (.signal .int) :: post) (hr : s.reader ≠ .ended)
    (hc : Clear X s (ctrlAhead s pre) (stdinAhead s pre)) : GetsThrough X s pre := by
  have hsane : Sane X s := h.invariant (fun _ _ _ hi _ hs => sane_step hX hi hs) sane_init
  obtain ⟨fs, t, hpath, ⟨ht, hpl⟩, hm, hh, rest, hq⟩ :=
    @exists_goal Lanes Ev (step X) Local work
      (fun t => Sane X t ∧ Place X (s.handled ++ ctrlAhead s pre) t)
      (Next (s.handled ++ ctrlAhead s pre))
      (fun t ⟨hs, hpl⟩ hn => by
        have hlift : Goes X (s.handled ++ ctrlAhead s pre) t →
            ∃ e u, Local t e ∧ step X t e = some u ∧
              (Sane X u ∧ Place X (s.handled ++ ctrlAhead s pre) u) ∧ work u < work t := by
          rintro ⟨e, u, hl, hst, hpu, hlt⟩
          exact ⟨e, u, hl, hst, ⟨sane_step hX hs hst, hpu⟩, hlt⟩
        apply hlift
        cases hm : t.main with
        | ended => exact absurd hm hpl.running
        | ponging =>
          obtain ⟨u, hst, hpu, hlt⟩ := pong_goes hpl hm
          exact ⟨.ponged, u, trivial, hst, hpu, hlt⟩
        | selecting =>
          cases hq : t.ctrl with
          | nil => exact reader_goes hpl hs hq
          | cons c cs =>
            obtain ⟨u, hst, hpu, hlt⟩ := control_goes hpl hs hm hq hn
            exact ⟨.control, u, trivial, hst, hpu, hlt⟩)
      s ⟨hsane, .unread pre post hp hr rfl hc⟩
  obtain ⟨u, hu, hhand⟩ := next_taken ht hpl hm hq
  exact ⟨fs, t, u, rest, hpath, hm, hh, hq, hu, hhand⟩

theorem sender_still {c d : Chan} {e : ExecChannel.Ev} (hs : ExecChannel.step c e = some d)
    (he : e = .sigRecv ∨ e = .sigNone ∨ e = .sigStop ∨ ∃ ok, e = .sigRequested ok) :
    d.stdin = c.stdin ∧ d.phase = c.phase ∧ d.fired = c.fired ∧ d.written = c.written := by
  have hrelay : ∀ (c : Chan) (sig : Signal), (c.relay sig).stdin = c.stdin ∧
      (c.relay sig).phase = c.phase ∧ (c.relay sig).fired = c.fired ∧
      (c.relay sig).written = c.written := by
    intro c sig
    obtain ⟨hstdin, hphase, hfired, hwritten, -⟩ := relay_keeps c sig
    exact ⟨hstdin, hphase, hfired, hwritten⟩
  rcases he with rfl | rfl | rfl | ⟨ok, rfl⟩
  · simp only [ExecChannel.step] at hs
    split at hs
    · split at hs
      · cases hs
        exact ⟨rfl, rfl, rfl, rfl⟩
      · cases hs
        exact hrelay _ _
    · cases hs
  · simp only [ExecChannel.step, Option.ite_none_right_eq_some, Option.some.injEq] at hs
    obtain ⟨-, rfl⟩ := hs
    exact ⟨rfl, rfl, rfl, rfl⟩
  · simp only [ExecChannel.step, Option.ite_none_right_eq_some, Option.some.injEq] at hs
    obtain ⟨-, rfl⟩ := hs
    exact ⟨rfl, rfl, rfl, rfl⟩
  · simp only [ExecChannel.step] at hs
    split at hs
    · cases hs
      exact hrelay _ _
    · cases hs

/-- The reader awaits room in a full lane while the forwarder awaits the window. -/
structure Wedged (p : List Item) (s : Lanes) : Prop where
  pipe : s.pipe = p
  reader : ∃ e, s.reader = .stdin e false
  rx : s.stdinRx = true
  lane : stdinCap ≤ s.chan.stdin.length
  phase : ∃ f, s.chan.phase = .writing f
  rest : s.rest ≠ []
  window : s.window = 0
  fired : s.chan.fired = false
  main : s.main = .selecting
  ctrl : s.ctrl = []

/-- Only the remote side ends it. -/
theorem wedged_step {p : List Item} {e : Ev} (h : Wedged p s) (hl : Local s e)
    (hs : step X s e = some u) : Wedged p u := by
  obtain ⟨x, hr⟩ := h.reader
  obtain ⟨f, hp⟩ := h.phase
  have hlane := h.lane
  cases e with
  | read | ctrlNone => simp [step, hr] at hs
  | control => simp [step, h.ctrl, h.main] at hs
  | ponged => simp [step, h.main] at hs
  | forwarderGone => simp [step, hp] at hs
  | put n =>
    simp only [step, h.window, Option.ite_none_right_eq_some] at hs
    omega
  | handOver =>
    simp only [step, hr, h.rx, if_true, ExecChannel.step, Option.map_eq_some_iff,
      Option.ite_none_right_eq_some] at hs
    obtain ⟨c, ⟨⟨-, hlt⟩, -⟩, -⟩ := hs
    omega
  | chan e =>
    have hsend : ∀ {c : Chan} {r : Bytes}, r = s.rest → c.stdin = s.chan.stdin ∧
        c.phase = s.chan.phase ∧ c.fired = s.chan.fired ∧ c.written = s.chan.written →
        Wedged p { s with chan := c, rest := r } := by
      rintro c r hrest ⟨h1, h2, h3, -⟩
      exact ⟨h.pipe, h.reader, h.rx, h1 ▸ h.lane, h2 ▸ h.phase, hrest ▸ h.rest, h.window,
        h3.trans h.fired, h.main, h.ctrl⟩
    obtain ⟨c, r, hstep, rfl, -, hstdin, hsig, -, hwrote, hsame⟩ := chanStep_spec hs
    cases e with
    | pushSignal sig | pushStdin x => cases hs
    | dropStdin =>
      have he := hstdin rfl
      rw [hr] at he
      cases he
    | dropSignals =>
      have ho := hsig rfl
      rw [h.main] at ho
      cases ho
    | fire => exact absurd rfl hl.1
    | poll b => simp [ExecChannel.step, hp] at hstep
    | wrote r =>
      cases r with
      | ok => exact absurd ((hwrote .ok rfl).2 rfl) h.rest
      | err => exact absurd rfl hl.2
      | cancelled => simp [ExecChannel.step, hp, h.fired] at hstep
    | sigRecv | sigNone | sigStop | sigRequested ok =>
      exact hsend (hsame (by simp) (by simp)) (sender_still hstep (by simp))
  | client i | emit | drain | writerGone | settle | opens | adjust n => exact hl.elim

theorem wedged_run {p : List Item} {es : List Ev} (h : Wedged p s)
    (hp : Path (step X) Local s es u) : Wedged p u :=
  hp.invariant (fun _ _ _ hw hl hs => wedged_step hw hl hs) h

end

/-- The texts of the signals, as `serde_json` writes them. -/
def signalText (s : Signal) : Bytes :=
  ("\"" ++ s.asStr ++ "\"").toList.map fun c => UInt8.ofNat c.toNat

def signalJson : Serde Signal where
  toVec s := .ok (signalText s)
  fromSlice b :=
    match [Signal.int, .term, .kill, .hup].find? fun s => b = signalText s with
    | some s => .ok s
    | none => .error "unknown variant"

def sampleExec : ExecJson ServeExec where
  exec := .single ⟨"default", "cat", [], none, none⟩
    "\x7b\"session\":\"default\",\"command\":\"cat\",\"args\":[],\"cwd\":null,\"timeout_ms\":null\x7d"
  signal := signalJson

theorem sampleExec_lawful : sampleExec.Lawful where
  exec := single_lawful _ _
  signal := by
    intro s b h
    cases h
    cases s <;> rfl

theorem sampleExec_signals : SignalsEncode sampleExec := by
  intro s
  refine ⟨_, rfl, ?_⟩
  cases s <;> decide

def sampleState : Lanes where
  sent := [.frame (.stdinData [104]), .frame (.signal .int)]
  pipe := [.frame (.stdinData [104]), .frame (.signal .int)]
  opened := true

theorem interrupt_gets_through_sample :
    GetsThrough sampleExec sampleState [.frame (.stdinData [104])] :=
  interrupt_gets_through sampleExec sampleExec_signals
    [.opens, .client (.frame (.stdinData [104])), .client (.frame (.signal .int))] sampleState
    (path_of_run rfl) [.frame (.stdinData [104])] [] rfl (by decide)
    ⟨by decide, by decide, by decide, by decide, fun _ => ⟨rfl, .inl (by decide)⟩⟩

/-- `n` chunks in the lane behind one that the window stops. -/
def filled (n : Nat) : Lanes where
  sent := List.replicate (n + 1) (.frame (.stdinData [0]))
  opened := true
  chan := { ExecChannel.opened with
    stdin := List.replicate n (.data [0])
    phase := .writing (.stdinData [0]) }
  rest := [2, 1, 0, 0, 0, 0]

theorem fill_step (n : Nat) (h : n < stdinCap) :
    run (step sampleExec) [.client (.frame (.stdinData [0])), .read, .handOver] (filled n) =
      some (filled (n + 1)) := by
  simp [run, step, filled, Item.terminal, Item.fits, maxPayload, Item.next, ExecChannel.step,
    ExecChannel.opened, h, List.replicate_succ']

theorem fill_run (n : Nat) (h : n ≤ stdinCap) :
    ∃ es, Path (step sampleExec) Any {} es (filled n) := by
  induction n with
  | zero =>
    exact ⟨[.opens, .client (.frame (.stdinData [0])), .read, .handOver, .chan (.poll .stdin)],
      path_of_run rfl⟩
  | succ n ih =>
    obtain ⟨es, hes⟩ := ih (Nat.le_of_succ_le h)
    exact ⟨_, hes.append (path_of_run (fill_step n h))⟩

/-- One chunk more is in the reader's hand, and an interrupt is written. -/
def wedged : Lanes :=
  { filled stdinCap with
    sent := (filled stdinCap).sent ++ [.frame (.stdinData [0]), .frame (.signal .int)]
    pipe := [.frame (.signal .int)]
    reader := .stdin (.data [0]) false }

/-- A closed window and 66 chunks of input hold an interrupt back. -/
theorem interrupt_held_back :
    ∃ es s, Path (step sampleExec) Any {} es s ∧ s.main = .selecting ∧
      s.pipe = [.frame (.signal .int)] ∧
      (∀ fs t, Path (step sampleExec) Local s fs t → t.pipe = s.pipe) ∧
      ¬ GetsThrough sampleExec s [] := by
  obtain ⟨es, hes⟩ := fill_run stdinCap (Nat.le_refl _)
  have hrun : run (step sampleExec) [.client (.frame (.stdinData [0])), .read,
      .client (.frame (.signal .int))] (filled stdinCap) = some wedged := by
    simp [run, step, filled, wedged, Item.terminal, Item.fits, maxPayload, Item.next]
  have hw : Wedged [.frame (.signal .int)] wedged :=
    ⟨rfl, ⟨_, rfl⟩, rfl, by simp [wedged, filled], ⟨_, rfl⟩, by simp [wedged, filled], rfl, rfl, rfl,
      rfl⟩
  refine ⟨_, wedged, hes.append (path_of_run hrun), rfl, rfl,
    fun fs t ht => (wedged_run hw ht).pipe, ?_⟩
  rintro ⟨fs, t, u, rest, ht, -, -, hq, -⟩
  rw [(wedged_run hw ht).ctrl] at hq
  cases hq

end ShellProxy.InputLanes
