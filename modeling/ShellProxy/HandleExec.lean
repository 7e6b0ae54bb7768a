import ShellProxy.Session
import ShellProxy.Lib.Machine
import Mathlib.Logic.Function.Basic

/-! The `handle_exec` tasks of the daemon and the tables they share: connections by host, session
buckets by host and session, and the lock of each bucket. -/
namespace ShellProxy.HandleExec
open Frame Session Machine

structure SessionKey where
  host : String
  session : SessionId
  deriving DecidableEq

/-- The state bucket of one session; `holder` is the task that has its lock. -/
structure SessionState where
  cwd : Option String := none
  holder : Option Nat := none
  deriving DecidableEq

/-- Where a task is in `handle_exec`. From `locked` to `updated` it holds its bucket's lock. -/
inductive Stage where
  | arrived | parsed | connected | queued | locked | running | ending | settled | updated | done
  deriving DecidableEq, Repr

def Stage.holds : Stage → Bool
  | .locked | .running | .ending | .settled | .updated => true
  | _ => false

abbrev Outcome := Except String (Option String)

structure Task where
  req : ExecRequest
  stage : Stage := .arrived
  id : Option SessionId := none
  conn : Option Nat := none
  bucket : Option Nat := none
  served : Option ServeExec := none
  outcome : Option Outcome := none

def Task.key (x : Task) : Option SessionKey := x.id.map fun i => ⟨x.req.host, i⟩

def Task.report (x : Task) : Option String :=
  match x.outcome with
  | some (.ok c) => c
  | _ => none

/-- The daemon. Connections and buckets are numbered in the order they are made, and `order`
records which task got the lock of which bucket, oldest first. -/
structure Daemon where
  tasks : Nat → Option Task := fun _ => none
  hosts : String → Option Nat := fun _ => none
  closed : Nat → Bool := fun _ => false
  conns : Nat := 0
  sessions : SessionKey → Option Nat := fun _ => none
  buckets : Nat → SessionState := fun _ => {}
  made : Nat := 0
  order : List (SessionKey × Nat) := []

inductive Ev where
  | arrive (t : Nat) (req : ExecRequest)
  | parse (t : Nat)
  | reuse (t : Nat)
  | connect (t : Nat)
  | connectFailed (t : Nat)
  | lose (c : Nat)
  | getSession (t : Nat)
  | lock (t : Nat)
  | assemble (t : Nat)
  | finish (t : Nat) (o : Outcome)
  | evict (t : Nat)
  | update (t : Nat)
  | release (t : Nat)

namespace Daemon

def taskAt (s : Daemon) (t : Nat) (g : Stage) : Option Task := (s.tasks t).filter fun x => x.stage = g

def set (s : Daemon) (t : Nat) (x : Task) : Daemon :=
  { s with tasks := Function.update s.tasks t (some x) }

def setBucket (s : Daemon) (b : Nat) (v : SessionState) : Daemon :=
  { s with buckets := Function.update s.buckets b v }

def live (s : Daemon) (host : String) : Option Nat := (s.hosts host).filter fun c => !s.closed c

def makeSession (s : Daemon) (k : SessionKey) : Daemon :=
  { s.setBucket s.made {} with
    sessions := Function.update s.sessions k (some s.made)
    made := s.made + 1 }

/-- `get_session`: the bucket of the key, made on first use. -/
def getSession (s : Daemon) (k : SessionKey) : Nat × Daemon :=
  match s.sessions k with
  | some b => (b, s)
  | none => (s.made, s.makeSession k)

end Daemon

/-- The request handed to the engine: the client's cwd, else the session's. -/
def assemble (x : Task) (id : SessionId) (cwd : Option String) : ServeExec where
  session := id.name
  command := x.req.command
  args := x.req.args
  cwd := x.req.cwd.or cwd
  timeoutMs := x.req.timeoutMs

def step (s : Daemon) : Ev → Option Daemon
  | .arrive t req => if (s.tasks t).isNone then some (s.set t { req := req }) else none
  | .parse t => do
    let x ← s.taskAt t .arrived
    match SessionId.parse (x.req.session.getD defaultName) with
    | .ok id => some (s.set t { x with stage := .parsed, id := some id })
    | .error _ => some (s.set t { x with stage := .done })
  | .reuse t => do
    let x ← s.taskAt t .parsed
    let c ← s.live x.req.host
    some (s.set t { x with stage := .connected, conn := some c })
  | .connect t => do
    let x ← s.taskAt t .parsed
    if (s.live x.req.host).isSome then none
    else
      some ({ s with
        hosts := Function.update s.hosts x.req.host (some s.conns)
        conns := s.conns + 1 }.set t { x with stage := .connected, conn := some s.conns })
  | .connectFailed t => do
    let x ← s.taskAt t .parsed
    some (s.set t { x with stage := .done })
  | .lose c => some { s with closed := Function.update s.closed c true }
  | .getSession t => do
    let x ← s.taskAt t .connected
    let k ← x.key
    let (b, s) := s.getSession k
    some (s.set t { x with stage := .queued, bucket := some b })
  | .lock t => do
    let x ← s.taskAt t .queued
    let k ← x.key
    let b ← x.bucket
    if (s.buckets b).holder.isSome then none
    else
      some ({ s.setBucket b { s.buckets b with holder := some t } with
        order := s.order ++ [(k, t)] }.set t { x with stage := .locked })
  | .assemble t => do
    let x ← s.taskAt t .locked
    let id ← x.id
    let b ← x.bucket
    some (s.set t { x with stage := .running, served := some (assemble x id (s.buckets b).cwd) })
  | .finish t o => do
    let x ← s.taskAt t .running
    some (s.set t { x with stage := .ending, outcome := some o })
  | .evict t => do
    let x ← s.taskAt t .ending
    let c ← x.conn
    -- only the exact instance that failed is dropped
    let lost := (match x.outcome with | some (.error _) => true | _ => false) && s.closed c &&
      s.hosts x.req.host == some c
    some ({ s with
      hosts := if lost then Function.update s.hosts x.req.host none else s.hosts }.set t
        { x with stage := .settled })
  | .update t => do
    let x ← s.taskAt t .settled
    let b ← x.bucket
    let cwd := match x.report with
      | some c => some c
      | none => (s.buckets b).cwd
    some ((s.setBucket b { s.buckets b with cwd := cwd }).set t { x with stage := .updated })
  | .release t => do
    let x ← s.taskAt t .updated
    let b ← x.bucket
    some ((s.setBucket b { s.buckets b with holder := none }).set t { x with stage := .done })

end ShellProxy.HandleExec
