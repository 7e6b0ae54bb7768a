import ShellProxy.Lib.Framing
import ShellProxy.Frame
import Mathlib.Tactic.Linarith

/-! The frame codec `[kind][u32 LE length][payload]`: the two writer paths of event frames
and the incremental decoder of the SSH hop. -/
namespace ShellProxy.Codec
open Frame Framing

structure Serde (α : Type) where
  toVec : α → Except String Bytes
  fromSlice : Bytes → Except String α

def Serde.Lawful {α : Type} (J : Serde α) : Prop := ∀ a b, J.toVec a = .ok b → J.fromSlice b = .ok a

structure EventJson where
  exitReport : Serde ExitReport
  pong : Serde Pong

structure EventJson.Lawful (J : EventJson) : Prop where
  exitReport : J.exitReport.Lawful
  pong : J.pong.Lawful

/-- The part of a codec that knows one value and its JSON text. -/
def Serde.single {α : Type} [DecidableEq α] (a : α) (text : String) : Serde α where
  toVec b := if b = a then .ok (text.toList.map fun c => UInt8.ofNat c.toNat) else .error "not in the table"
  fromSlice b :=
    if b = text.toList.map (fun c => UInt8.ofNat c.toNat) then .ok a else .error "not in the table"

theorem single_lawful {α : Type} [DecidableEq α] (a : α) (text : String) :
    (Serde.single a text).Lawful := by
  intro b bytes h
  unfold Serde.single at h ⊢
  by_cases hb : b = a
  · simp only [if_pos hb, Except.ok.injEq] at h
    simp only [← h, if_true, hb]
  · simp only [if_neg hb] at h
    cases h

def sampleReport : ExitReport := ⟨0, none, none, false⟩
def sampleReportJson : String :=
  "\x7b\"code\":0,\"cwd\":null,\"error\":null,\"timed_out\":false\x7d"

def sampleJson : EventJson where
  exitReport := .single sampleReport sampleReportJson
  pong := .single ⟨42⟩ "\x7b\"pid\":42\x7d"

theorem sampleJson_lawful : sampleJson.Lawful where
  exitReport := single_lawful sampleReport sampleReportJson
  pong := single_lawful (⟨42⟩ : Pong) "\x7b\"pid\":42\x7d"

def maxPayload : Nat := 16 * 1024 * 1024
def packedPayloadMax : Nat := 8 * 1024

def leBytes (n : Nat) : Bytes :=
  [UInt8.ofNat n, UInt8.ofNat (n / 2 ^ 8), UInt8.ofNat (n / 2 ^ 16), UInt8.ofNat (n / 2 ^ 24)]

def fromLeBytes (a b c d : UInt8) : Nat :=
  a.toNat + 2 ^ 8 * b.toNat + 2 ^ 16 * c.toNat + 2 ^ 24 * d.toNat

def tooLarge (len : Nat) : Error := .protocol s!"frame too large: {len}"

def frameHeader (kind : UInt8) (len : Nat) : Except Error Bytes :=
  if len < 2 ^ 32 then .ok (kind :: leBytes len) else .error (tooLarge len)

def encodeRaw (kind : UInt8) (payload : Bytes) : Except Error Bytes := do
  let hdr ← frameHeader kind payload.length
  return hdr ++ payload

/-- `serde_json::to_vec`, with its error as the crate's. -/
def toVec {α : Type} (J : Serde α) (a : α) : Except Error Bytes :=
  (J.toVec a).mapError .json

variable (J : EventJson)

def eventPayload : EventFrame → Except Error (EventKind × Bytes)
  | .stdout d => .ok (.stdout, d)
  | .stderr d => .ok (.stderr, d)
  | .exit r => (toVec J.exitReport r).map fun p => (.exit, p)
  | .pong p => (toVec J.pong p).map fun b => (.pong, b)

def encodeEventFrame (f : EventFrame) : Except Error Bytes := do
  let (kind, payload) ← eventPayload J f
  encodeRaw kind.toByte payload

/- Header and payload as two writes. -/
def writeRaw (w : Bytes) (kind : UInt8) (payload : Bytes) : Except Error Bytes := do
  let hdr ← frameHeader kind payload.length
  return (w ++ hdr) ++ payload

/-- Write one responder frame after the bytes `w`; large raw payloads take the split path. -/
def writeEventFrame (w : Bytes) : EventFrame → Except Error Bytes
  | .stdout d =>
    if packedPayloadMax ≤ d.length then writeRaw w EventKind.stdout.toByte d
    else (encodeEventFrame J (.stdout d)).map (w ++ ·)
  | .stderr d =>
    if packedPayloadMax ≤ d.length then writeRaw w EventKind.stderr.toByte d
    else (encodeEventFrame J (.stderr d)).map (w ++ ·)
  | f => (encodeEventFrame J f).map (w ++ ·)

def writeEventFrames (w : Bytes) : List EventFrame → Except Error Bytes
  | [] => .ok w
  | f :: fs => do
    let w ← writeEventFrame J w f
    writeEventFrames w fs

def json {α : Type} (S : Serde α) (payload : Bytes) : Except Error α :=
  (S.fromSlice payload).mapError fun e => .protocol ("bad frame payload: " ++ e)

def decodeEvent (kind : EventKind) (payload : Bytes) : Except Error EventFrame :=
  match kind with
  | .stdout => .ok (.stdout payload)
  | .stderr => .ok (.stderr payload)
  | .exit => (json J.exitReport payload).map .exit
  | .pong => (json J.pong payload).map .pong

/-- One iteration of the decoder's loop: length first, then completeness, then kind and payload. -/
def nextEvent : Bytes → Next Error EventFrame
  | k :: l0 :: l1 :: l2 :: l3 :: body =>
    let len := fromLeBytes l0 l1 l2 l3
    if maxPayload < len then .bad (tooLarge len)
    else if body.length < len then .more
    else
      match EventKind.tryFrom k with
      | .error e => .bad e
      | .ok kind =>
        match decodeEvent J kind (body.take len) with
        | .error e => .bad e
        | .ok f => .item f (5 + len)
  | _ => .more

theorem nextEvent_used (b : Bytes) (f : EventFrame) (n : Nat) (h : nextEvent J b = .item f n) :
    0 < n ∧ n ≤ b.length := by
  unfold nextEvent at h
  split at h
  · simp only at h
    repeat' split at h
    all_goals simp_all
    omega
  · simp at h

def eventSplitter : Splitter UInt8 Error EventFrame := ⟨nextEvent J, nextEvent_used J⟩

/-- Incremental decoder for chunks of a responder frame stream. Replacing an empty buffer of
large capacity by a new one does not change its bytes, so the capacity is not part of it. -/
structure EventDecoder where
  buf : Bytes := []
  deriving DecidableEq, Repr

def EventDecoder.new : EventDecoder := {}

def EventDecoder.push (d : EventDecoder) (chunk : Bytes) : Except Error (List EventFrame × EventDecoder) :=
  ((eventSplitter J).drain (d.buf ++ chunk)).map fun p => (p.1, ⟨p.2⟩)

def EventDecoder.pushAll (d : EventDecoder) :
    List Bytes → Except Error (List (List EventFrame) × EventDecoder)
  | [] => .ok ([], d)
  | c :: cs => do
    let (fs, d) ← d.push J c
    let (fss, d) ← EventDecoder.pushAll d cs
    return (fs :: fss, d)

structure ExecJson (E : Type) where
  exec : Serde E
  signal : Serde Signal

structure ExecJson.Lawful {E : Type} (X : ExecJson E) : Prop where
  exec : X.exec.Lawful
  signal : X.signal.Lawful

section
variable {E : Type} (X : ExecJson E)

def execPayload : ExecFrame E → Except Error (ExecKind × Bytes)
  | .exec req => (toVec X.exec req).map fun p => (.exec, p)
  | .stdinData d => .ok (.stdinData, d)
  | .stdinEof => .ok (.stdinEof, [])
  | .signal s => (toVec X.signal s).map fun p => (.signal, p)
  | .ping => .ok (.ping, [])

def encodeExecFrame (f : ExecFrame E) : Except Error Bytes := do
  let (kind, payload) ← execPayload X f
  encodeRaw kind.toByte payload

def writeExecFrame (w : Bytes) : ExecFrame E → Except Error Bytes
  | .stdinData d =>
    if packedPayloadMax ≤ d.length then writeRaw w ExecKind.stdinData.toByte d
    else (encodeExecFrame X (.stdinData d)).map (w ++ ·)
  | f => (encodeExecFrame X f).map (w ++ ·)

def decodeExec (kind : ExecKind) (payload : Bytes) : Except Error (ExecFrame E) :=
  match kind with
  | .exec => (json X.exec payload).map .exec
  | .stdinData => .ok (.stdinData payload)
  | .stdinEof => .ok .stdinEof
  | .signal => (json X.signal payload).map .signal
  | .ping => .ok .ping

end

end ShellProxy.Codec
