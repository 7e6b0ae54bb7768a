import ShellProxy.Frame
import ShellProxy.Lib.Machine

/-! The tasks of `ExecChannel::open` around one SSH channel: the out-of-band signal sender and
the forwarder, with the lanes between them and the latched shutdown flag. -/
namespace ShellProxy.ExecChannel
open Frame Machine

inductive StdinEvent where
  | data (d : Bytes)
  | eof
  deriving DecidableEq, Repr

/-- Where the signal sender waits. Once it has exited, the in-band lane has no sender. -/
inductive Sender where
  | waiting
  | requesting (s : Signal)
  | exited
  deriving DecidableEq, Repr

/-- Where the forwarder is: at the head of its loop, inside a channel write, or past the loop,
at `writer.close()`. -/
inductive Phase where
  | top
  | writing (f : ExecFrame ServeExec)
  | closing
  deriving DecidableEq, Repr

/-- Capacities of the signal lane, the in-band lane and the stdin lane. -/
def signalCap : Nat := 8
def inbandCap : Nat := 8
def stdinCap : Nat := 64

/-- Lanes, flag and tasks. `requests` and `written` are what went out: the accepted channel
requests and the frames written whole. -/
structure Chan where
  signals : List Signal := []
  signalsTx : Bool := true
  stdin : List StdinEvent := []
  stdinTx : Bool := true
  fired : Bool := false
  sender : Sender := .waiting
  inband : List Signal := []
  stdinOpen : Bool := true
  phase : Phase := .top
  requests : List Signal := []
  written : List (ExecFrame ServeExec) := []
  deriving DecidableEq, Repr

def opened : Chan := {}

def goesOutOfBand (sig : Signal) : Bool := sig = .int

inductive Branch where
  | inband | stdin | shutdown
  deriving DecidableEq, Repr

/-- How a channel write selected against the flag ends. -/
inductive WriteEnd where
  | ok | err | cancelled
  deriving DecidableEq, Repr

/-- Lane ends held by the daemon, the flag, the signal sender's steps and the forwarder's. -/
inductive Ev where
  | pushSignal (s : Signal)
  | dropSignals
  | pushStdin (e : StdinEvent)
  | dropStdin
  | fire
  | sigRecv
  | sigNone
  | sigRequested (ok : Bool)
  | sigStop
  | poll (b : Branch)
  | wrote (r : WriteEnd)
  deriving DecidableEq, Repr

/-- `inband_tx.try_send(sig)`: a full lane drops the signal. -/
def Chan.relay (c : Chan) (s : Signal) : Chan :=
  if c.inband.length < inbandCap then { c with inband := c.inband ++ [s] } else c

/-- A lane is ready when it holds an item or has no sender. -/
def Chan.ready (c : Chan) : Branch → Bool
  | .inband => !c.inband.isEmpty || c.sender == .exited
  | .stdin => !c.stdin.isEmpty || !c.stdinTx
  | .shutdown => c.fired

/-- The branch a select may take: the first ready one while stdin is open, where the select is
biased, and any of the two others afterwards. -/
def Chan.picks (c : Chan) : Branch → Bool
  | .inband => c.ready .inband
  | .stdin => c.stdinOpen && !c.ready .inband && c.ready .stdin
  | .shutdown => c.ready .shutdown && (!c.stdinOpen || (!c.ready .inband && !c.ready .stdin))

def Chan.take (c : Chan) : Branch → Chan
  | .inband =>
    match c.inband with
    | s :: rest => { c with inband := rest, phase := .writing (.signal s) }
    | [] =>
      -- with stdin open the closed lane is ignored, afterwards it ends the loop
      if c.stdinOpen then c else { c with phase := .closing }
  | .stdin =>
    match c.stdin with
    | .data d :: rest => { c with stdin := rest, phase := .writing (.stdinData d) }
    | .eof :: rest => { c with stdin := rest, phase := .writing .stdinEof }
    | [] => { c with stdinOpen := false }
  | .shutdown => { c with phase := .closing }

/-- After a write of `f`. A failed EOF write goes on like a completed one. -/
def Chan.afterWrite (c : Chan) (f : ExecFrame ServeExec) : WriteEnd → Chan
  | .ok =>
    { c with
      phase := .top
      stdinOpen := c.stdinOpen && f != .stdinEof
      written := c.written ++ [f] }
  | .err =>
    if f = .stdinEof then { c with phase := .top, stdinOpen := false }
    else { c with phase := .closing }
  | .cancelled => { c with phase := .closing }

def step (c : Chan) : Ev → Option Chan
  | .pushSignal s =>
    if c.signalsTx ∧ c.sender ≠ .exited ∧ c.signals.length < signalCap then
      some { c with signals := c.signals ++ [s] }
    else none
  | .dropSignals => some { c with signalsTx := false }
  | .pushStdin e =>
    if c.stdinTx ∧ c.stdin.length < stdinCap then some { c with stdin := c.stdin ++ [e] } else none
  | .dropStdin => some { c with stdinTx := false }
  | .fire => some { c with fired := true }
  | .sigRecv =>
    match c.sender, c.signals with
    | .waiting, s :: rest =>
      if goesOutOfBand s then some { c with signals := rest, sender := .requesting s }
      else some ({ c with signals := rest }.relay s)
    | _, _ => none
  | .sigNone =>
    if c.sender = .waiting ∧ c.signals = [] ∧ c.signalsTx = false then
      some { c with sender := .exited }
    else none
  | .sigRequested ok =>
    match c.sender with
    | .requesting s =>
      some ({ c with
        sender := .waiting
        requests := if ok then c.requests ++ [s] else c.requests }.relay s)
    | _ => none
  | .sigStop => if c.fired ∧ c.sender ≠ .exited then some { c with sender := .exited } else none
  | .poll b => if c.phase = .top ∧ c.picks b then some (c.take b) else none
  | .wrote r =>
    match c.phase with
    | .writing f => if r = .cancelled ∧ ¬ c.fired then none else some (c.afterWrite f r)
    | _ => none

def Ev.forwards : Ev → Bool
  | .poll _ | .wrote _ => true
  | _ => false

/-- Nothing new is queued on the lanes from the daemon's side. -/
def Quiet (_ : Chan) : Ev → Prop
  | .pushSignal _ | .pushStdin _ => False
  | _ => True

end ShellProxy.ExecChannel
