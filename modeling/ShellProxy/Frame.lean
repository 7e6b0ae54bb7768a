import Mathlib.Data.List.Basic

/-! Frames of the wire protocol shared by both hops, and the values they carry.
`ExecFrame` flows from the initiator, `EventFrame` flows back. -/
namespace ShellProxy.Frame

abbrev Bytes := List UInt8

inductive Error where
  | io (e : String)
  | json (e : String)
  | protocol (m : String)
  deriving DecidableEq, Repr

def internalErrorCode : Int := 254
def timeoutExitCode : Int := 124

inductive Signal where
  | int | term | kill | hup
  deriving DecidableEq, Repr

def Signal.asStr : Signal → String
  | .int => "int"
  | .term => "term"
  | .kill => "kill"
  | .hup => "hup"

structure ExecRequest where
  host : String
  command : String
  args : List String := []
  cwd : Option String := none
  timeoutMs : Option Nat := none
  session : Option String := none
  deriving DecidableEq, Repr

structure ServeExec where
  session : String
  command : String
  args : List String := []
  cwd : Option String := none
  timeoutMs : Option Nat := none
  deriving DecidableEq, Repr

structure ExitReport where
  code : Int
  cwd : Option String := none
  error : Option String := none
  timedOut : Bool := false
  deriving DecidableEq, Repr

structure Pong where
  pid : Nat
  deriving DecidableEq, Repr

inductive ExecKind where
  | exec | stdinData | stdinEof | signal | ping
  deriving DecidableEq, Repr

inductive EventKind where
  | stdout | stderr | exit | pong
  deriving DecidableEq, Repr

def ExecKind.toByte : ExecKind → UInt8
  | .exec => 1
  | .stdinData => 2
  | .stdinEof => 3
  | .signal => 4
  | .ping => 5

def EventKind.toByte : EventKind → UInt8
  | .stdout => 0x81
  | .stderr => 0x82
  | .exit => 0x83
  | .pong => 0x84

/-- The `{:#x}` form of a byte. -/
def hex (v : UInt8) : String := "0x" ++ String.ofList (Nat.toDigits 16 v.toNat)

def ExecKind.tryFrom (v : UInt8) : Except Error ExecKind :=
  if v = 1 then .ok .exec
  else if v = 2 then .ok .stdinData
  else if v = 3 then .ok .stdinEof
  else if v = 4 then .ok .signal
  else if v = 5 then .ok .ping
  else .error (.protocol ("bad exec frame kind " ++ hex v))

def EventKind.tryFrom (v : UInt8) : Except Error EventKind :=
  if v = 0x81 then .ok .stdout
  else if v = 0x82 then .ok .stderr
  else if v = 0x83 then .ok .exit
  else if v = 0x84 then .ok .pong
  else .error (.protocol ("bad event frame kind " ++ hex v))

@[simp] theorem ExecKind.tryFrom_toByte (k : ExecKind) : tryFrom k.toByte = .ok k := by
  cases k <;> rfl

@[simp] theorem EventKind.tryFrom_toByte (k : EventKind) : tryFrom k.toByte = .ok k := by
  cases k <;> rfl

inductive ExecFrame (E : Type) where
  | exec (req : E)
  | stdinData (d : Bytes)
  | stdinEof
  | signal (s : Signal)
  | ping
  deriving DecidableEq, Repr

inductive EventFrame where
  | stdout (d : Bytes)
  | stderr (d : Bytes)
  | exit (rep : ExitReport)
  | pong (p : Pong)
  deriving DecidableEq, Repr

inductive Stream where
  | out | err
  deriving DecidableEq, Repr

def Stream.frame : Stream → Bytes → EventFrame
  | .out, d => .stdout d
  | .err, d => .stderr d

/-- What a frame contributes to a stream. -/
def EventFrame.payload : EventFrame → Stream → Bytes
  | .stdout d, .out => d
  | .stderr d, .err => d
  | _, _ => []

/-- The bytes a list of frames contributes to a stream. -/
def payloads (t : Stream) (fs : List EventFrame) : Bytes := fs.flatMap fun f => f.payload t

@[simp] theorem payloads_nil (t : Stream) : payloads t [] = [] := rfl

@[simp] theorem payloads_cons (t : Stream) (f : EventFrame) (fs : List EventFrame) :
    payloads t (f :: fs) = f.payload t ++ payloads t fs := by simp [payloads]

@[simp] theorem payloads_append (t : Stream) (fs gs : List EventFrame) :
    payloads t (fs ++ gs) = payloads t fs ++ payloads t gs := by simp [payloads]

@[simp] theorem payload_frame (t u : Stream) (d : Bytes) :
    (t.frame d).payload u = if t = u then d else [] := by
  cases t <;> cases u <;> rfl

@[simp] theorem payload_exit (t : Stream) (r : ExitReport) :
    (EventFrame.exit r).payload t = [] := by cases t <;> rfl

@[simp] theorem payload_pong (t : Stream) (p : Pong) :
    (EventFrame.pong p).payload t = [] := by cases t <;> rfl

def EventFrame.isExit : EventFrame → Bool
  | .exit _ => true
  | _ => false

@[simp] theorem isExit_frame (t : Stream) (d : Bytes) : (t.frame d).isExit = false := by
  cases t <;> rfl

end ShellProxy.Frame
