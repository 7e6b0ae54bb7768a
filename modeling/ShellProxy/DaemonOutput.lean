import ShellProxy.EventStream
import ShellProxy.Errors

/-! The output side of one execution in the daemon: the control loop of `ExecChannel::wait`, the
bridge task, the loop and the final report of `handle_exec`, and the writer of the client pipe. -/
namespace ShellProxy.DaemonOutput
open Frame Codec EventStream Framing
variable {J : EventJson}

/-- Entries of the channel event queue, of the output event queue and of the client frame queue. -/
def msgCap : Nat := 64
def eventCap : Nat := 256
def clientCap : Nat := 256

inductive Msg where
  | data (b : Bytes)
  | log (b : Bytes)
  | status (n : Nat)
  | closed
  deriving DecidableEq, Repr

structure OutputEvent where
  stream : Stream
  data : Bytes
  deriving DecidableEq, Repr

def OutputEvent.frame (e : OutputEvent) : EventFrame := e.stream.frame e.data

structure ExecOutcome where
  exitCode : Int
  newCwd : Option String
  timedOut : Bool
  deriving DecidableEq, Repr

/-- What `handle_exec` is left with: serve's own report, or why there is none. -/
abbrev Outcome := Except String ExecOutcome

/-- Where `handle_exec` is: in its loop, awaiting the send of a Pong there, past the loop until the
bridge is joined, at the Exit frame, returned. The engine is polled by the loop only. -/
inductive Main where
  | looping
  | pinging (p : Pong)
  | joining (o : Outcome)
  | reporting (o : Outcome)
  | done (o : Outcome)

def Main.outcome : Main → Option Outcome
  | .looping | .pinging _ => none
  | .joining o | .reporting o | .done o => some o

/-- `result` is what `wait` is about to return. `emitted` is all that the client was sent, `fed`
all that the decoder was fed, `handled` the frames the control loop took. -/
structure Daemon where
  msgs : List Msg := []
  link : Bool := true
  decoder : EventDecoder := .new
  batch : List EventFrame := []
  status : Option Nat := none
  result : Option (Except Errors.Error ExecOutcome) := none
  eventQ : List OutputEvent := []
  bridge : Option OutputEvent := none
  main : Main := .looping
  clientQ : List EventFrame := []
  emitted : List EventFrame := []
  fed : Bytes := []
  handled : List EventFrame := []

inductive Ev where
  | linkEnds
  | recv
  | handle
  | finished
  | giveUp (m : String)
  | ping (p : Pong)
  | pongSent
  | bridgeTake
  | bridgeSend
  | joined
  | report
  | emit

def ofReport (r : ExitReport) : ExecOutcome := ⟨r.code, r.cwd, r.timedOut⟩

def reportOf : Outcome → ExitReport
  | .ok o => ⟨o.exitCode, o.newCwd, none, o.timedOut⟩
  | .error m => ⟨internalErrorCode, none, some m, false⟩

def statusText : Option Nat → String
  | some n => s!"Some({n})"
  | none => "None"

def noReport (status : Option Nat) : Errors.Error :=
  .remote ("sp-serve closed the channel without an exit report (exit status " ++
    statusText status ++ "); see daemon log for its stderr")

namespace Daemon

def push (d : Daemon) (m : Msg) : Option Daemon :=
  if d.link = true ∧ d.msgs.length < msgCap then some { d with msgs := d.msgs ++ [m] } else none

def polls (d : Daemon) : Bool :=
  match d.main with
  | .looping => d.result.isNone
  | _ => false

def onMsg (J : EventJson) (d : Daemon) : Msg → Daemon
  | .data b =>
    match d.decoder.push J b with
    | .ok (fs, dec) => { d with fed := d.fed ++ b, decoder := dec, batch := fs }
    | .error e => { d with fed := d.fed ++ b, result := some (.error (.ofProto e)) }
  | .log _ => d
  | .status n => { d with status := some n }
  | .closed => { d with result := some (.error (noReport d.status)) }

end Daemon

/-- The connection of the client stays open here: `emit` is a take of the writer task, and none of
its writes fails. -/
def step (J : EventJson) (d : Daemon) : Ev → Option Daemon
  | .linkEnds => some { d with link := false }
  | .recv =>
    if d.polls = true ∧ d.batch = [] then
      match d.msgs with
      | m :: rest => some ({ d with msgs := rest }.onMsg J m)
      | [] => if d.link = false then some (d.onMsg J .closed) else none
    else none
  | .handle =>
    if d.polls = true then
      match d.batch with
      | [] => none
      | .exit r :: _ =>
        some { d with
          batch := []
          handled := d.handled ++ [.exit r]
          result := some (.ok (ofReport r)) }
      | .pong p :: rest => some { d with batch := rest, handled := d.handled ++ [.pong p] }
      | .stdout b :: rest =>
        if d.eventQ.length < eventCap then
          some { d with
            batch := rest
            handled := d.handled ++ [.stdout b]
            eventQ := d.eventQ ++ [⟨.out, b⟩] }
        else none
      | .stderr b :: rest =>
        if d.eventQ.length < eventCap then
          some { d with
            batch := rest
            handled := d.handled ++ [.stderr b]
            eventQ := d.eventQ ++ [⟨.err, b⟩] }
        else none
    else none
  | .finished =>
    match d.main, d.result with
    | .looping, some r =>
      some { d with main := .joining (r.mapError Errors.Error.brief), link := false }
    | _, _ => none
  -- a fatal client event, the watchdog, or an exec channel that could not be opened
  | .giveUp m =>
    match d.main with
    | .looping => some { d with main := .joining (.error m), link := false }
    | _ => none
  | .ping p =>
    match d.main with
    | .looping => some { d with main := .pinging p }
    | _ => none
  | .pongSent =>
    match d.main with
    | .pinging p =>
      if d.clientQ.length < clientCap then
        some { d with main := .looping, clientQ := d.clientQ ++ [.pong p] }
      else none
    | _ => none
  | .bridgeTake =>
    match d.bridge, d.eventQ with
    | none, e :: rest => some { d with bridge := some e, eventQ := rest }
    | _, _ => none
  | .bridgeSend =>
    match d.bridge with
    | some e =>
      if d.clientQ.length < clientCap then
        some { d with bridge := none, clientQ := d.clientQ ++ [e.frame] }
      else none
    | none => none
  -- the bridge ends when the engine's sender is gone and its queue is empty
  | .joined =>
    match d.main with
    | .joining o =>
      if d.bridge = none ∧ d.eventQ = [] then some { d with main := .reporting o } else none
    | _ => none
  | .report =>
    match d.main with
    | .reporting o =>
      if d.clientQ.length < clientCap then
        some { d with main := .done o, clientQ := d.clientQ ++ [.exit (reportOf o)] }
      else none
    | _ => none
  | .emit =>
    match d.clientQ with
    | f :: rest => some { d with clientQ := rest, emitted := d.emitted ++ [f] }
    | [] => none

/-- The steps of the daemon's own tasks; the others come from outside. -/
def Ev.works : Ev → Bool
  | .linkEnds | .giveUp _ | .ping _ => false
  | _ => true

def Msg.bytes : Msg → Bytes
  | .data b => b
  | _ => []

/-- Output chunks on their way through the bridge. -/
def Daemon.bridged (d : Daemon) : List OutputEvent := d.bridge.toList ++ d.eventQ

/-- The control loop has read the frames `fs` of the channel in order; a report it returns is the
last frame it took. -/
structure Reading (J : EventJson) (fs : List EventFrame) (d : Daemon) : Prop where
  flow : d.fed ++ d.msgs.flatMap Msg.bytes <+: encodeAll (wire J) fs
  order : d.handled ++ d.batch <+: fs
  read : d.result = none → (eventSplitter J).next d.decoder.buf = .more ∧
    d.fed = encodeAll (wire J) (d.handled ++ d.batch) ++ d.decoder.buf
  idle : d.result.isSome = true → d.batch = []
  plain : (∀ o, d.result ≠ some (.ok o)) → ∀ f ∈ d.handled, f.isExit = false
  exit : ∀ o, d.result = some (.ok o) → ∃ q r, d.handled = q ++ [.exit r] ∧ o = ofReport r

/-- What each event does to a daemon that takes it. `take` is a frame that is not the report: its
output goes to the bridge. -/
inductive Move (J : EventJson) (d : Daemon) : Ev → Daemon → Prop where
  | linkEnds : Move J d .linkEnds { d with link := false }
  | recv (m : Msg) (rest : List Msg) : d.main = .looping → d.result = none → d.batch = [] →
      d.msgs = m :: rest → Move J d .recv ({ d with msgs := rest }.onMsg J m)
  | recvEnd : d.main = .looping → d.result = none → d.batch = [] → d.msgs = [] → d.link = false →
      Move J d .recv (d.onMsg J .closed)
  | exit (r : ExitReport) (rest : List EventFrame) : d.main = .looping → d.result = none →
      d.batch = .exit r :: rest → Move J d .handle { d with
        batch := [], handled := d.handled ++ [.exit r], result := some (.ok (ofReport r)) }
  | take (f : EventFrame) (rest : List EventFrame) (q : List OutputEvent) : d.main = .looping →
      d.result = none → d.batch = f :: rest → f.isExit = false → q.length ≤ 1 →
      (∀ t, payloads t (q.map (·.frame)) = f.payload t) → Move J d .handle { d with
        batch := rest, handled := d.handled ++ [f], eventQ := d.eventQ ++ q }
  | finished (r : Except Errors.Error ExecOutcome) : d.main = .looping → d.result = some r →
      Move J d .finished { d with
        main := .joining (r.mapError Errors.Error.brief), link := false }
  | giveUp (m : String) : d.main = .looping →
      Move J d (.giveUp m) { d with main := .joining (.error m), link := false }
  | ping (p : Pong) : d.main = .looping → Move J d (.ping p) { d with main := .pinging p }
  | pongSent (p : Pong) : d.main = .pinging p → Move J d .pongSent { d with
      main := .looping, clientQ := d.clientQ ++ [.pong p] }
  | bridgeTake (v : OutputEvent) (rest : List OutputEvent) : d.bridge = none →
      d.eventQ = v :: rest → Move J d .bridgeTake { d with bridge := some v, eventQ := rest }
  | bridgeSend (v : OutputEvent) : d.bridge = some v → Move J d .bridgeSend { d with
      bridge := none, clientQ := d.clientQ ++ [v.frame] }
  | joined (o : Outcome) : d.main = .joining o → d.bridge = none → d.eventQ = [] →
      Move J d .joined { d with main := .reporting o }
  | report (o : Outcome) : d.main = .reporting o → Move J d .report { d with
      main := .done o, clientQ := d.clientQ ++ [.exit (reportOf o)] }
  | emit (f : EventFrame) (rest : List EventFrame) : d.clientQ = f :: rest →
      Move J d .emit { d with clientQ := rest, emitted := d.emitted ++ [f] }

/-- What the control loop took is on its way to the client, and the Exit frame is behind it. -/
structure Sending (d : Daemon) : Prop where
  path : ∀ t, payloads t (d.emitted ++ d.clientQ) ++ payloads t (d.bridged.map (·.frame)) =
    payloads t d.handled
  own : ∀ o, d.main.outcome = some (.ok o) → d.result = some (.ok o)
  early : (∀ o, d.main ≠ .done o) → ∀ f ∈ d.emitted ++ d.clientQ, f.isExit = false
  ending : ∀ o, d.main = .reporting o → d.bridged = []
  last : ∀ o, d.main = .done o → d.bridged = [] ∧
    ∃ pre, d.emitted ++ d.clientQ = pre ++ [.exit (reportOf o)] ∧ ∀ f ∈ pre, f.isExit = false

section
variable {fs gs : List EventFrame} {d u : Daemon}

theorem polls_iff (d : Daemon) : d.polls = true ↔ d.main = .looping ∧ d.result = none := by
  unfold Daemon.polls
  cases d.main <;> simp

theorem step_move {e : Ev} (hs : step J d e = some u) : Move J d e u := by
  cases e with
  | linkEnds =>
    simp only [step, Option.some.injEq] at hs
    exact hs ▸ .linkEnds
  | recv =>
    simp only [step] at hs
    by_cases hc : d.polls = true ∧ d.batch = []
    · rw [if_pos hc] at hs
      obtain ⟨hmain, hr⟩ := (polls_iff d).mp hc.1
      cases hmsgs : d.msgs with
      | nil =>
        simp only [hmsgs] at hs
        by_cases hl : d.link = false
        · rw [if_pos hl, Option.some.injEq] at hs
          exact hs ▸ .recvEnd hmain hr hc.2 hmsgs hl
        · rw [if_neg hl] at hs
          cases hs
      | cons m rest =>
        simp only [hmsgs, Option.some.injEq] at hs
        exact hs ▸ .recv m rest hmain hr hc.2 hmsgs
    · rw [if_neg hc] at hs
      cases hs
  | handle =>
    simp only [step] at hs
    by_cases hc : d.polls = true
    · rw [if_pos hc] at hs
      obtain ⟨hmain, hr⟩ := (polls_iff d).mp hc
      cases hb : d.batch with
      | nil => simp only [hb, reduceCtorEq] at hs
      | cons f rest =>
        simp only [hb] at hs
        cases f with
        | exit r => exact Option.some.inj hs ▸ .exit r rest hmain hr hb
        | pong p =>
          have hmove := Move.take (J := J) (.pong p) rest [] hmain hr hb rfl (by simp)
            fun t => (payload_pong t p).symm
          rw [List.append_nil] at hmove
          exact Option.some.inj hs ▸ hmove
        | stdout b =>
          by_cases hl : d.eventQ.length < eventCap
          · simp only [if_pos hl, Option.some.injEq] at hs
            refine hs ▸ .take (.stdout b) rest [⟨.out, b⟩] hmain hr hb rfl (by simp) ?_
            intro t
            cases t <;> simp [OutputEvent.frame, Stream.frame, EventFrame.payload]
          · simp only [if_neg hl, reduceCtorEq] at hs
        | stderr b =>
          by_cases hl : d.eventQ.length < eventCap
          · simp only [if_pos hl, Option.some.injEq] at hs
            refine hs ▸ .take (.stderr b) rest [⟨.err, b⟩] hmain hr hb rfl (by simp) ?_
            intro t
            cases t <;> simp [OutputEvent.frame, Stream.frame, EventFrame.payload]
          · simp only [if_neg hl, reduceCtorEq] at hs
    · rw [if_neg hc] at hs
      cases hs
  | finished =>
    simp only [step] at hs
    cases hmain : d.main with
    | looping =>
      cases hr : d.result with
      | none => simp only [hmain, hr, reduceCtorEq] at hs
      | some r =>
        simp only [hmain, hr, Option.some.injEq] at hs
        rw [← hr] at hs
        exact hs ▸ .finished r hmain hr
    | pinging | joining | reporting | done => simp only [hmain, reduceCtorEq] at hs
  | giveUp m =>
    simp only [step] at hs
    cases hmain : d.main with
    | looping =>
      simp only [hmain, Option.some.injEq] at hs
      exact hs ▸ .giveUp m hmain
    | pinging | joining | reporting | done => simp only [hmain, reduceCtorEq] at hs
  | ping p =>
    simp only [step] at hs
    cases hmain : d.main with
    | looping =>
      simp only [hmain, Option.some.injEq] at hs
      exact hs ▸ .ping p hmain
    | pinging | joining | reporting | done => simp only [hmain, reduceCtorEq] at hs
  | pongSent =>
    simp only [step] at hs
    cases hmain : d.main with
    | pinging p =>
      simp only [hmain, Option.ite_none_right_eq_some, Option.some.injEq] at hs
      exact hs.2 ▸ .pongSent p hmain
    | looping | joining | reporting | done => simp only [hmain, reduceCtorEq] at hs
  | bridgeTake =>
    simp only [step] at hs
    cases hb : d.bridge with
    | some v => simp only [hb, reduceCtorEq] at hs
    | none =>
      cases hq : d.eventQ with
      | nil => simp only [hb, hq, reduceCtorEq] at hs
      | cons v rest =>
        simp only [hb, hq, Option.some.injEq] at hs
        exact hs ▸ .bridgeTake v rest hb hq
  | bridgeSend =>
    simp only [step] at hs
    cases hb : d.bridge with
    | none => simp only [hb, reduceCtorEq] at hs
    | some v =>
      simp only [hb, Option.ite_none_right_eq_some, Option.some.injEq] at hs
      exact hs.2 ▸ .bridgeSend v hb
  | joined =>
    simp only [step] at hs
    cases hmain : d.main with
    | joining o =>
      simp only [hmain, Option.ite_none_right_eq_some, Option.some.injEq] at hs
      exact hs.2 ▸ .joined o hmain hs.1.1 hs.1.2
    | looping | pinging | reporting | done => simp only [hmain, reduceCtorEq] at hs
  | report =>
    simp only [step] at hs
    cases hmain : d.main with
    | reporting o =>
      simp only [hmain, Option.ite_none_right_eq_some, Option.some.injEq] at hs
      exact hs.2 ▸ .report o hmain
    | looping | pinging | joining | done => simp only [hmain, reduceCtorEq] at hs
  | emit =>
    simp only [step] at hs
    cases hq : d.clientQ with
    | nil => simp only [hq, reduceCtorEq] at hs
    | cons f rest =>
      simp only [hq, Option.some.injEq] at hs
      exact hs ▸ .emit f rest hq

theorem Reading.mono (h : Reading J fs d) (hg : fs <+: gs) : Reading J gs d where
  flow := by
    obtain ⟨t, rfl⟩ := hg
    rw [encodeAll_append]
    exact h.flow.trans (List.prefix_append _ _)
  order := h.order.trans hg
  read := h.read
  idle := h.idle
  plain := h.plain
  exit := h.exit

theorem Reading.push {m : Msg} (h : Reading J fs d)
    (hm : d.fed ++ (d.msgs ++ [m]).flatMap Msg.bytes <+: encodeAll (wire J) fs)
    (hs : d.push m = some u) : Reading J fs u := by
  unfold Daemon.push at hs
  by_cases hc : d.link = true ∧ d.msgs.length < msgCap
  · rw [if_pos hc, Option.some.injEq] at hs
    subst hs
    exact ⟨hm, h.order, h.read, h.idle, h.plain, h.exit⟩
  · rw [if_neg hc] at hs
    cases hs

theorem Sending.push {m : Msg} (h : Sending d) (hs : d.push m = some u) : Sending u := by
  unfold Daemon.push at hs
  by_cases hc : d.link = true ∧ d.msgs.length < msgCap
  · rw [if_pos hc, Option.some.injEq] at hs
    subst hs
    exact ⟨h.path, h.own, h.early, h.ending, h.last⟩
  · rw [if_neg hc] at hs
    cases hs

theorem push_chunk (hJ : J.Lawful) (hf : ∀ f ∈ fs, Fits J f) (h : Reading J fs d)
    (hr : d.result = none) (hb : d.batch = []) {b : Bytes}
    (hm : d.fed ++ b <+: encodeAll (wire J) fs) :
    ∃ out dec, d.decoder.push J b = .ok (out, dec) ∧ d.handled ++ out <+: fs ∧
      (eventSplitter J).next dec.buf = .more ∧
      d.decoder.buf ++ b = encodeAll (wire J) out ++ dec.buf := by
  obtain ⟨-, hfed⟩ := h.read hr
  have hhandled : d.handled <+: fs := (List.prefix_append _ _).trans h.order
  obtain ⟨ahead, rfl⟩ := hhandled
  rw [hb, List.append_nil] at hfed
  rw [hfed, encodeAll_append, List.append_assoc, List.prefix_append_right_inj] at hm
  obtain ⟨rest, hrest⟩ := hm
  obtain ⟨out, left, kept, rfl, hdrain, hout, -, hmore, -⟩ :=
    (reads_event hJ).drain next_nil ahead _ rest (fun f h => hf f (List.mem_append_right _ h)) hrest
  refine ⟨out, ⟨kept⟩, ?_, ?_, hmore, hout⟩
  · rw [EventDecoder.push, hdrain]
    rfl
  · rw [← List.append_assoc]
    exact List.prefix_append _ _

theorem reading_onMsg (hJ : J.Lawful) (hf : ∀ f ∈ fs, Fits J f) (h : Reading J fs d)
    (hr : d.result = none) (hb : d.batch = []) (m : Msg) (rest : List Msg)
    (hm : d.fed ++ m.bytes ++ rest.flatMap Msg.bytes <+: encodeAll (wire J) fs) :
    Reading J fs ({ d with msgs := rest }.onMsg J m) := by
  have hplain := h.plain (by simp [hr])
  cases m with
  | data b =>
    have hnext : d.fed ++ b <+: encodeAll (wire J) fs := (List.prefix_append _ _).trans hm
    obtain ⟨out, dec, hpush, horder, hmore, hbuf⟩ := push_chunk hJ hf h hr hb hnext
    obtain ⟨-, hfed⟩ := h.read hr
    simp only [Daemon.onMsg, hpush]
    refine ⟨hm, horder, fun _ => ⟨hmore, ?_⟩, by simp [hr], h.plain, h.exit⟩
    calc
      d.fed ++ b = encodeAll (wire J) d.handled ++ (d.decoder.buf ++ b) := by
        rw [hfed, hb, List.append_nil, List.append_assoc]
      _ = encodeAll (wire J) (d.handled ++ out) ++ dec.buf := by
        rw [hbuf, encodeAll_append, List.append_assoc]
  | log b =>
    simp only [Msg.bytes, List.append_nil] at hm
    exact ⟨hm, h.order, h.read, h.idle, h.plain, h.exit⟩
  | status n =>
    simp only [Msg.bytes, List.append_nil] at hm
    exact ⟨hm, h.order, h.read, h.idle, h.plain, h.exit⟩
  | closed =>
    simp only [Msg.bytes, List.append_nil] at hm
    simp only [Daemon.onMsg]
    exact ⟨hm, h.order, by simp, fun _ => hb, fun _ => hplain, by simp⟩

theorem reading_step {e : Ev} (hJ : J.Lawful) (hf : ∀ f ∈ fs, Fits J f) (h : Reading J fs d)
    (hs : step J d e = some u) : Reading J fs u := by
  cases step_move hs with
  | recv m rest hmain hr hb hmsgs =>
    have hflow := h.flow
    rw [hmsgs, List.flatMap_cons, ← List.append_assoc] at hflow
    exact reading_onMsg hJ hf h hr hb m rest hflow
  | recvEnd hmain hr hb hmsgs hl =>
    exact reading_onMsg hJ hf h hr hb .closed d.msgs (by simpa [Msg.bytes] using h.flow)
  | exit r rest hmain hr hb =>
    have horder := h.order
    rw [hb, ← List.singleton_append, ← List.append_assoc] at horder
    refine ⟨h.flow, ?_, by simp, by simp, by simp, ?_⟩
    · rw [List.append_nil]
      exact (List.prefix_append _ _).trans horder
    · intro o ho
      exact ⟨d.handled, r, rfl, (Except.ok.inj (Option.some.inj ho)).symm⟩
  | take f rest q hmain hr hb hplain hq hpay =>
    have hsame : d.handled ++ [f] ++ rest = d.handled ++ d.batch := by
      rw [hb, List.append_assoc]
      rfl
    refine ⟨h.flow, ?_, ?_, by simp [hr], ?_, by simp [hr]⟩
    · exact hsame ▸ h.order
    · intro hn
      exact hsame ▸ h.read hn
    · intro hn
      exact List.forall_mem_append.mpr ⟨h.plain hn, List.forall_mem_singleton.mpr hplain⟩
  | linkEnds | finished | giveUp | ping | pongSent | bridgeTake | bridgeSend | joined | report
  | emit => exact ⟨h.flow, h.order, h.read, h.idle, h.plain, h.exit⟩

theorem arrived_step {e : Ev} (hs : step J d e = some u) :
    u.fed ++ u.msgs.flatMap Msg.bytes = d.fed ++ d.msgs.flatMap Msg.bytes := by
  cases step_move hs with
  | recv m rest hmain hr hb hmsgs =>
    rw [hmsgs, List.flatMap_cons]
    cases m with
    | data b =>
      cases hp : d.decoder.push J b with
      | ok r =>
        simp only [Daemon.onMsg, hp]
        exact List.append_assoc _ _ _
      | error e =>
        simp only [Daemon.onMsg, hp]
        exact List.append_assoc _ _ _
    | log b | status n | closed => rfl
  | recvEnd | linkEnds | exit | take | finished | giveUp | ping | pongSent | bridgeTake
  | bridgeSend | joined | report | emit => rfl

theorem sending_open (hmain : d.main.outcome = none)
    (hpath : ∀ t, payloads t (d.emitted ++ d.clientQ) ++ payloads t (d.bridged.map (·.frame)) =
      payloads t d.handled)
    (hplain : ∀ f ∈ d.emitted ++ d.clientQ, f.isExit = false) : Sending d where
  path := hpath
  own o ho := by
    rw [hmain] at ho
    cases ho
  early _ := hplain
  ending o ho := by
    rw [ho] at hmain
    cases hmain
  last o ho := by
    rw [ho] at hmain
    cases hmain

theorem Sending.looping (h : Sending d) (hmain : d.main = .looping) :
    ∀ f ∈ d.emitted ++ d.clientQ, f.isExit = false := h.early (by simp [hmain])

theorem sending_onMsg (h : Sending d) (hmain : d.main = .looping) (m : Msg) (rest : List Msg) :
    Sending ({ d with msgs := rest }.onMsg J m) := by
  have hout : d.main.outcome = none := by rw [hmain, Main.outcome]
  cases m with
  | data b =>
    cases hp : d.decoder.push J b with
    | ok r =>
      simp only [Daemon.onMsg, hp]
      exact sending_open hout h.path (h.looping hmain)
    | error e =>
      simp only [Daemon.onMsg, hp]
      exact sending_open hout h.path (h.looping hmain)
  | log b => exact sending_open hout h.path (h.looping hmain)
  | status n => exact sending_open hout h.path (h.looping hmain)
  | closed => exact sending_open hout h.path (h.looping hmain)

theorem path_silent (h : Sending d) {f : EventFrame} (hf : ∀ t, payloads t [f] = []) (t : Stream) :
    payloads t (d.emitted ++ (d.clientQ ++ [f])) ++ payloads t (d.bridged.map (·.frame)) =
      payloads t d.handled := by
  rw [← List.append_assoc, payloads_append t (d.emitted ++ d.clientQ), hf, List.append_nil]
  exact h.path t

theorem sending_step {e : Ev} (h : Sending d) (hs : step J d e = some u) : Sending u := by
  cases step_move hs with
  | linkEnds => exact ⟨h.path, h.own, h.early, h.ending, h.last⟩
  | recv m rest hmain hr hb hmsgs => exact sending_onMsg h hmain m rest
  | recvEnd hmain hr hb hmsgs hl => exact sending_onMsg h hmain .closed d.msgs
  | exit r rest hmain hr hb =>
    refine sending_open (by rw [hmain, Main.outcome]) ?_ (h.looping hmain)
    intro t
    have hsame : payloads t (d.handled ++ [.exit r]) = payloads t d.handled := by simp
    exact (h.path t).trans hsame.symm
  | take f rest q hmain hr hb hplain hq hpay =>
    refine sending_open (by rw [hmain, Main.outcome]) ?_ (h.looping hmain)
    intro t
    have hbridged : d.bridge.toList ++ (d.eventQ ++ q) = d.bridged ++ q :=
      (List.append_assoc _ _ _).symm
    change payloads t (d.emitted ++ d.clientQ) ++
      payloads t ((d.bridge.toList ++ (d.eventQ ++ q)).map (·.frame)) = payloads t (d.handled ++ [f])
    rw [hbridged, List.map_append, payloads_append t (d.bridged.map _), hpay, ← List.append_assoc,
      h.path, payloads_append, payloads_cons, payloads_nil, List.append_nil]
  | finished r hmain hr =>
    refine ⟨h.path, ?_, fun _ => h.looping hmain, by simp, by simp⟩
    intro o ho
    cases r with
    | ok v =>
      cases ho
      exact hr
    | error e => cases ho
  | giveUp m hmain =>
    refine ⟨h.path, ?_, fun _ => h.looping hmain, by simp, by simp⟩
    intro o ho
    cases ho
  | ping p hmain => exact sending_open rfl h.path (h.looping hmain)
  | pongSent p hmain =>
    have hplain := h.early (by simp [hmain])
    refine sending_open rfl (path_silent h (by simp)) ?_
    rw [← List.append_assoc]
    exact List.forall_mem_append.mpr ⟨hplain, List.forall_mem_singleton.mpr rfl⟩
  | bridgeTake v rest hb hq =>
    have hbridged : ({ d with bridge := some v, eventQ := rest } : Daemon).bridged = d.bridged := by
      rw [Daemon.bridged, Daemon.bridged, hb, hq]
      rfl
    refine ⟨?_, h.own, h.early, ?_, ?_⟩
    · rw [hbridged]
      exact h.path
    · rw [hbridged]
      exact h.ending
    · rw [hbridged]
      exact h.last
  | bridgeSend v hb =>
    have hbridged : d.bridged = v :: d.eventQ := by
      rw [Daemon.bridged, hb]
      rfl
    refine ⟨?_, h.own, ?_, ?_, ?_⟩
    · intro t
      have hpath := h.path t
      rw [hbridged, List.map_cons, payloads_cons] at hpath
      rw [← hpath]
      simp [Daemon.bridged]
    · intro hd
      rw [← List.append_assoc]
      exact List.forall_mem_append.mpr
        ⟨h.early hd, List.forall_mem_singleton.mpr (isExit_frame v.stream v.data)⟩
    · intro o ho
      have he := h.ending o ho
      rw [hbridged] at he
      cases he
    · intro o ho
      have he := (h.last o ho).1
      rw [hbridged] at he
      cases he
  | joined o hmain hb hq =>
    refine ⟨h.path, ?_, fun _ => h.early (by simp [hmain]), ?_, by simp⟩
    · intro x hx
      exact h.own x (by rw [hmain]; exact hx)
    · intro _ _
      change d.bridged = []
      rw [Daemon.bridged, hb, hq]
      rfl
  | report o hmain =>
    have hplain := h.early (by simp [hmain])
    refine ⟨path_silent h (by simp), ?_, ?_, by simp, ?_⟩
    · intro x hx
      exact h.own x (by rw [hmain]; exact hx)
    · intro hd
      exact absurd rfl (hd o)
    · intro x hx
      obtain rfl : o = x := Main.done.inj hx
      exact ⟨h.ending o hmain, d.emitted ++ d.clientQ, (List.append_assoc _ _ _).symm, hplain⟩
  | emit f rest hq =>
    have hsame : d.emitted ++ [f] ++ rest = d.emitted ++ d.clientQ := by
      rw [hq, List.append_assoc]
      rfl
    refine ⟨?_, h.own, ?_, h.ending, ?_⟩
    · exact hsame ▸ h.path
    · exact hsame ▸ h.early
    · exact hsame ▸ h.last

/-- The client was sent output only, or everything and the Exit frame behind it. -/
theorem emitted_cases (h : Sending d) :
    (∀ f ∈ d.emitted, f.isExit = false) ∨
      ∃ o pre, d.main = .done o ∧ d.bridged = [] ∧ d.clientQ = [] ∧
        d.emitted = pre ++ [.exit (reportOf o)] ∧ ∀ f ∈ pre, f.isExit = false := by
  by_cases hd : ∃ o, d.main = .done o
  · obtain ⟨o, hmain⟩ := hd
    obtain ⟨hbridged, pre, hall, hplain⟩ := h.last o hmain
    have hpre : d.emitted <+: pre ++ [.exit (reportOf o)] := ⟨d.clientQ, hall⟩
    cases List.prefix_concat_iff.mp hpre with
    | inl he =>
      have hempty : d.clientQ = [] := by simpa [he] using hall
      exact .inr ⟨o, pre, hmain, hbridged, hempty, he, hplain⟩
    | inr he => exact .inl fun f hf => hplain f (he.subset hf)
  · refine .inl fun f hf => ?_
    exact h.early (fun o ho => hd ⟨o, ho⟩) f (List.mem_append_left _ hf)

/-- Steps the place in `handle_exec` is away from its end, with the frames it still queues. -/
def Main.rank : Main → Nat
  | .pinging _ => 6
  | .looping => 4
  | .joining _ => 3
  | .reporting _ => 2
  | .done _ => 0

/-- The work at hand: every stage of an output frame weighs more than the next one, and a buffered
byte as much as a fifth of a decoded frame. -/
def Daemon.load (d : Daemon) : Nat :=
  d.msgs.length + (d.msgs.flatMap Msg.bytes).length + d.decoder.buf.length + 5 * d.batch.length +
    4 * d.eventQ.length + 3 * d.bridge.toList.length + d.clientQ.length + d.main.rank +
    (if d.result.isNone then 1 else 0)

theorem load_push {m : Msg} (hs : d.push m = some u) : u.load = d.load + 1 + m.bytes.length := by
  unfold Daemon.push at hs
  rw [Option.ite_none_right_eq_some, Option.some.injEq] at hs
  obtain ⟨-, rfl⟩ := hs
  simp only [Daemon.load, List.flatMap_append, List.flatMap_cons, List.flatMap_nil,
    List.length_append, List.length_cons, List.length_nil]
  omega

theorem load_onMsg (hJ : J.Lawful) (hf : ∀ f ∈ fs, Fits J f) (h : Reading J fs d)
    (hr : d.result = none) (hb : d.batch = []) {m : Msg} {rest : List Msg}
    (hmsgs : d.msgs = m :: rest) : ({ d with msgs := rest }.onMsg J m).load < d.load := by
  cases m with
  | data b =>
    have hm : d.fed ++ b <+: encodeAll (wire J) fs := by
      have hflow := h.flow
      rw [hmsgs, List.flatMap_cons, ← List.append_assoc] at hflow
      exact (List.prefix_append _ _).trans hflow
    obtain ⟨out, dec, hpush, horder, -, hbuf⟩ := push_chunk hJ hf h hr hb hm
    have hfive := five_mul_length_le out fun f hfo =>
      hf f (horder.subset (List.mem_append_right _ hfo))
    have hlen := congrArg List.length hbuf
    rw [List.length_append, List.length_append] at hlen
    simp only [Daemon.onMsg, hpush, Daemon.load, hmsgs, hr, hb, List.flatMap_cons, Msg.bytes,
      List.length_append, List.length_cons, List.length_nil]
    omega
  | log b =>
    simp only [Daemon.onMsg, Daemon.load, hmsgs, hr, List.flatMap_cons, Msg.bytes, List.nil_append,
      List.length_cons]
    omega
  | status n =>
    simp only [Daemon.onMsg, Daemon.load, hmsgs, hr, List.flatMap_cons, Msg.bytes, List.nil_append,
      List.length_cons]
    omega
  | closed =>
    simp only [Daemon.onMsg, Daemon.load, hmsgs, hr, List.flatMap_cons, Msg.bytes,
      List.nil_append, List.length_cons, Option.isNone_some, Option.isNone_none,
      Bool.false_eq_true, if_false, if_true]
    omega

/-- Each step of the daemon's own tasks lowers the work at hand. -/
theorem load_step {e : Ev} (hJ : J.Lawful) (hf : ∀ f ∈ fs, Fits J f) (h : Reading J fs d)
    (hw : e.works = true) (hs : step J d e = some u) : u.load < d.load := by
  cases step_move hs with
  | linkEnds | giveUp | ping => cases hw
  | recv m rest hmain hr hb hmsgs => exact load_onMsg hJ hf h hr hb hmsgs
  | recvEnd hmain hr hb hmsgs hl =>
    simp only [Daemon.onMsg, Daemon.load, hr, Option.isNone_some, Option.isNone_none,
      Bool.false_eq_true, if_false, if_true]
    omega
  | exit r rest hmain hr hb =>
    simp only [Daemon.load, hr, hb, List.length_cons, List.length_nil, Option.isNone_some,
      Option.isNone_none, Bool.false_eq_true, if_false, if_true]
    omega
  | take f rest q hmain hr hb hplain hq hpay =>
    simp only [Daemon.load, hb, List.length_cons, List.length_append]
    omega
  | finished r hmain hr =>
    simp only [Daemon.load, hmain, Main.rank]
    omega
  | pongSent p hmain =>
    simp only [Daemon.load, hmain, Main.rank, List.length_append, List.length_cons, List.length_nil]
    omega
  | bridgeTake v rest hb hq =>
    simp only [Daemon.load, hb, hq, Option.toList_some, Option.toList_none, List.length_cons,
      List.length_nil]
    omega
  | bridgeSend v hb =>
    simp only [Daemon.load, hb, Option.toList_some, Option.toList_none, List.length_append,
      List.length_cons, List.length_nil]
    omega
  | joined o hmain hb hq =>
    simp only [Daemon.load, hmain, Main.rank]
    omega
  | report o hmain =>
    simp only [Daemon.load, hmain, Main.rank, List.length_append, List.length_cons, List.length_nil]
    omega
  | emit f rest hq =>
    simp only [Daemon.load, hq, List.length_cons]
    omega

/-- A daemon with nothing to do has sent all it had, or its control loop waits for the channel. -/
theorem still_cases (hstill : ∀ e : Ev, e.works = true → step J d e = none) :
    (∃ o, d.main = .done o ∧ d.clientQ = []) ∨
      (d.main = .looping ∧ d.result = none ∧ d.batch = [] ∧ d.msgs = [] ∧ d.link = true) := by
  have hclient : d.clientQ = [] := by
    have he := hstill .emit rfl
    cases hq : d.clientQ with
    | nil => rfl
    | cons f rest => simp only [step, hq, reduceCtorEq] at he
  have hroom : d.clientQ.length < clientCap := by simp [hclient, clientCap]
  have hbridge : d.bridge = none := by
    have he := hstill .bridgeSend rfl
    cases hb : d.bridge with
    | none => rfl
    | some v => simp only [step, hb, if_pos hroom, reduceCtorEq] at he
  have hevents : d.eventQ = [] := by
    have he := hstill .bridgeTake rfl
    cases hq : d.eventQ with
    | nil => rfl
    | cons v rest => simp only [step, hbridge, hq, reduceCtorEq] at he
  cases hmain : d.main with
  | pinging p =>
    have he := hstill .pongSent rfl
    simp only [step, hmain, if_pos hroom, reduceCtorEq] at he
  | joining o =>
    have he := hstill .joined rfl
    simp only [step, hmain, if_pos (And.intro hbridge hevents), reduceCtorEq] at he
  | reporting o =>
    have he := hstill .report rfl
    simp only [step, hmain, if_pos hroom, reduceCtorEq] at he
  | done o => exact .inl ⟨o, rfl, hclient⟩
  | looping =>
    have hresult : d.result = none := by
      have he := hstill .finished rfl
      cases hr : d.result with
      | none => rfl
      | some r => simp only [step, hmain, hr, reduceCtorEq] at he
    have hpolls := (polls_iff d).mpr ⟨hmain, hresult⟩
    have hbatch : d.batch = [] := by
      have he := hstill .handle rfl
      have heroom : d.eventQ.length < eventCap := by simp [hevents, eventCap]
      cases hb : d.batch with
      | nil => rfl
      | cons f rest =>
        cases f <;> simp only [step, hpolls, if_true, hb, if_pos heroom, reduceCtorEq] at he
    have hrecv := hstill .recv rfl
    simp only [step, if_pos (And.intro hpolls hbatch)] at hrecv
    cases hmsgs : d.msgs with
    | cons m rest => simp only [hmsgs, reduceCtorEq] at hrecv
    | nil =>
      simp only [hmsgs, ite_eq_right_iff, reduceCtorEq, imp_false] at hrecv
      exact .inr ⟨rfl, hresult, hbatch, rfl, by simpa using hrecv⟩

end

end ShellProxy.DaemonOutput
