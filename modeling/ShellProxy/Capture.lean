import ShellProxy.Lib.Utf8
import ShellProxy.ClientRun
import ShellProxy.HostPattern

/-! Captured output: the sinks of `run_captured_capped`, and what the read tools make of it. -/
namespace ShellProxy.Capture
open Frame ClientRun HostPattern Utf8

def captureCap : Nat := 512 * 1024
def maxToolOutput : Nat := 64 * 1024

/-- The buffer with the prefix of `chunk` that fits below `cap`, and the number of dropped bytes. -/
def appendCapped (buf : Bytes) (cap : Nat) (chunk : Bytes) : Bytes × Nat :=
  let room := cap - buf.length
  if chunk.length ≤ room then (buf ++ chunk, 0) else (buf ++ chunk.take room, chunk.length - room)

/-- A buffer at its cap takes nothing more, so its content is always the front of the stream. -/
theorem appendCapped_eq {s : Bytes} (cap : Nat) (chunk : Bytes) :
    (appendCapped (s.take cap) cap chunk).1 = (s ++ chunk).take cap ∧
      (s.length - cap) + (appendCapped (s.take cap) cap chunk).2 = (s ++ chunk).length - cap := by
  have hroom : cap - (s.take cap).length = cap - s.length := by
    rw [List.length_take]
    omega
  unfold appendCapped
  simp only [hroom]
  rw [List.take_append, List.length_append]
  split
  · rename_i hfit
    refine ⟨by rw [List.take_of_length_le hfit], ?_⟩
    cases chunk with
    | nil => simp
    | cons b bs =>
      rw [List.length_cons] at hfit ⊢
      omega
  · refine ⟨rfl, ?_⟩
    dsimp only
    omega

theorem appendCapped_length {buf : Bytes} {cap : Nat} (h : buf.length ≤ cap) (chunk : Bytes) :
    (appendCapped buf cap chunk).1.length ≤ cap := by
  unfold appendCapped
  dsimp only
  split <;> simp only [List.length_append, List.length_take] <;> omega

/-- Keeps at most `captureCap` bytes and counts the rest. -/
structure CappedSink where
  buf : Bytes := []
  dropped : Nat := 0
  inside : buf.length ≤ captureCap := by decide

namespace CappedSink

/-- The whole chunk counts as consumed. -/
def pollWrite (s : CappedSink) (chunk : Bytes) : CappedSink × Nat :=
  ({ buf := (appendCapped s.buf captureCap chunk).1
     dropped := s.dropped + (appendCapped s.buf captureCap chunk).2
     inside := appendCapped_length s.inside chunk }, chunk.length)

/-- `write_all`: one poll, and none for an empty chunk. -/
def writeAll (s : CappedSink) (chunk : Bytes) : CappedSink :=
  if chunk = [] then s else (s.pollWrite chunk).1

structure Holds (s : CappedSink) (seen : Bytes) : Prop where
  buf : s.buf = seen.take captureCap
  dropped : s.dropped = seen.length - captureCap

theorem holds_start : Holds {} [] := ⟨rfl, rfl⟩

theorem Holds.write {s : CappedSink} {seen : Bytes} (h : s.Holds seen) (chunk : Bytes) :
    (s.writeAll chunk).Holds (seen ++ chunk) := by
  unfold writeAll
  split
  · rename_i he
    rw [he, List.append_nil]
    exact h
  · obtain ⟨hbuf, hdropped⟩ := appendCapped_eq (s := seen) captureCap chunk
    rw [← h.buf] at hbuf hdropped
    rw [← h.dropped] at hdropped
    exact ⟨hbuf, hdropped⟩

end CappedSink

structure DroppedBytes where
  stdout : Nat := 0
  stderr : Nat := 0
  deriving DecidableEq, Repr

structure Captured where
  stdout : CappedSink := {}
  stderr : CappedSink := {}

/-- The frames that `run` gets, with the sinks for its streams. -/
def Captured.onFrames (c : Captured) : List EventFrame → Except Errors.Error (RunReport × Captured)
  | [] => .error closedBeforeExit
  | .stdout d :: fs => onFrames { c with stdout := c.stdout.writeAll d } fs
  | .stderr d :: fs => onFrames { c with stderr := c.stderr.writeAll d } fs
  | .exit rep :: _ => .ok (RunReport.ofExit rep, c)
  | .pong _ :: fs => onFrames c fs

abbrev Run := RunReport × Bytes × Bytes × DroppedBytes

def runCapturedCapped (frames : List EventFrame) : Except Errors.Error Run :=
  (Captured.onFrames {} frames).map fun r =>
    (r.1, r.2.stdout.buf, r.2.stderr.buf, ⟨r.2.stdout.dropped, r.2.stderr.dropped⟩)

def capturedRun (out err : Bytes) (rep : ExitReport) : Run :=
  (RunReport.ofExit rep, out.take captureCap, err.take captureCap,
    ⟨out.length - captureCap, err.length - captureCap⟩)

theorem onFrames_exit {c : Captured} {out err : Bytes} {pre rest : List EventFrame}
    {rep : ExitReport} (ho : c.stdout.Holds out) (he : c.stderr.Holds err)
    (hpre : ∀ f ∈ pre, f.isExit = false) :
    ∃ c' : Captured, c.onFrames (pre ++ .exit rep :: rest) = .ok (RunReport.ofExit rep, c') ∧
      c'.stdout.Holds (out ++ payloads .out pre) ∧ c'.stderr.Holds (err ++ payloads .err pre) := by
  induction pre generalizing c out err with
  | nil => exact ⟨c, rfl, by simpa using ho, by simpa using he⟩
  | cons f pre ih =>
    have hrest := fun g hg => hpre g (List.mem_cons_of_mem f hg)
    cases f with
    | stdout d =>
      have := ih (c := { c with stdout := c.stdout.writeAll d }) (ho.write d) he hrest
      simpa [EventFrame.payload, Captured.onFrames] using this
    | stderr d =>
      have := ih (c := { c with stderr := c.stderr.writeAll d }) ho (he.write d) hrest
      simpa [EventFrame.payload, Captured.onFrames] using this
    | exit rep' => exact absurd (hpre _ List.mem_cons_self) (by simp [EventFrame.isExit])
    | pong p =>
      have := ih ho he hrest
      simpa [EventFrame.payload, Captured.onFrames] using this

/-- The capture depends on the bytes of the streams only, not on their frames. -/
theorem runCapturedCapped_eq {pre : List EventFrame} (rest : List EventFrame) (rep : ExitReport)
    (hpre : ∀ f ∈ pre, f.isExit = false) :
    runCapturedCapped (pre ++ .exit rep :: rest) =
      .ok (capturedRun (payloads .out pre) (payloads .err pre) rep) := by
  obtain ⟨c, hc, ho, he⟩ := @onFrames_exit {} [] [] pre rest rep
    CappedSink.holds_start CappedSink.holds_start hpre
  rw [runCapturedCapped, hc, Except.map, ho.buf, ho.dropped, he.buf, he.dropped]
  rfl

/-! ### Tool results -/

def line (s : String) : Text := s.toList ++ ['\n']

def truncatedNotice (total : Nat) : Text :=
  line ("...[truncated, " ++ toString total ++ " bytes total]")

def droppedNotice (n : Nat) (stream : String) : Text :=
  if 0 < n then line ("[dropped " ++ toString n ++ " bytes of " ++ stream ++ "]") else []

/-- One stream, truncated with a notice beyond the cap. -/
def clip (bytes : Bytes) : Text :=
  if bytes.length ≤ maxToolOutput then lossy bytes
  else
    let s := lossy (bytes.take maxToolOutput)
    (if s.getLast? = some '\n' then s else s ++ ['\n']) ++ truncatedNotice bytes.length

/-- The drop notices, behind every clipped section. -/
def pushDropped (out : Text) (d : DroppedBytes) : Text :=
  if d.stdout = 0 ∧ d.stderr = 0 then out
  else
    (if out ≠ [] ∧ out.getLast? ≠ some '\n' then out ++ ['\n'] else out) ++
      (droppedNotice d.stdout "stdout" ++ droppedNotice d.stderr "stderr")

def fileResult (report : RunReport) (stdout stderr : Bytes) (dropped : DroppedBytes) :
    Option Text :=
  match report.error with
  | some e => some ("error: " ++ e).toList
  | none =>
    if report.code ≠ 0 then
      some (pushDropped (line ("exit_code: " ++ toString report.code) ++ line "--- stdout ---" ++
        clip stdout ++ line "--- stderr ---" ++ clip stderr) dropped)
    else none

inductive OutputEncoding where
  | text | base64
  deriving DecidableEq, Repr

inductive CallToolResult where
  | error (text : Text)
  | success (text : Text)
  deriving DecidableEq, Repr

structure McpError where
  message : String
  deriving DecidableEq, Repr

def call (run : Except Errors.Error Run) : Except McpError Run :=
  run.mapError fun e => ⟨e.brief⟩

/-- The base64 encoder comes from outside. -/
def readRemote (base64 : Bytes → Bytes) (run : Except Errors.Error Run)
    (encoding : OutputEncoding) : Except McpError CallToolResult := do
  let (report, stdout, stderr, dropped) ← call run
  match fileResult report stdout stderr dropped with
  | some err => return .error err
  | none =>
    let text := match encoding with
      | .text => clip stdout
      | .base64 => clip (base64 stdout)
    return .success (pushDropped text dropped)

/-- What the agent is told of a text that does not fit. -/
def Told (t text : Text) : Prop :=
  ∃ s total dropped, LongestFit t s maxToolOutput ∧ total + dropped = (encode t).length ∧
    let shown := s ++ if (encode s).length = maxToolOutput then [] else [replacement]
    text = shown ++ ((if shown.getLast? = some '\n' then [] else ['\n']) ++
      (truncatedNotice total ++ droppedNotice dropped "stdout"))

theorem getLast?_truncatedNotice (s : Text) (n : Nat) :
    (s ++ truncatedNotice n).getLast? = some '\n' := by
  rw [truncatedNotice, line, ← List.append_assoc, List.getLast?_concat]

theorem pushDropped_line {out : Text} (h : out.getLast? = some '\n') (n : Nat) :
    pushDropped out ⟨n, 0⟩ = out ++ droppedNotice n "stdout" := by
  unfold pushDropped
  split
  · rename_i hnone
    have hn : n = 0 := hnone.1
    simp [hn, droppedNotice]
  · rw [if_neg (by simp [h])]
    simp [droppedNotice]

theorem clip_fits {t : Text} (h : (encode t).length ≤ maxToolOutput) : clip (encode t) = t := by
  rw [clip, if_pos h, lossy_encode]

theorem clip_capture {t : Text} (h : maxToolOutput < (encode t).length) :
    ∃ s, LongestFit t s maxToolOutput ∧
      let shown := s ++ if (encode s).length = maxToolOutput then [] else [replacement]
      clip ((encode t).take captureCap) =
        shown ++ ((if shown.getLast? = some '\n' then [] else ['\n']) ++
          truncatedNotice (min captureCap (encode t).length)) := by
  obtain ⟨s, hs, hl⟩ := lossy_take h
  refine ⟨s, hs, ?_⟩
  have hcap : maxToolOutput < captureCap := by decide
  have hlen : ¬ ((encode t).take captureCap).length ≤ maxToolOutput := by
    rw [List.length_take]
    omega
  dsimp only
  rw [clip, if_neg hlen, List.take_take, Nat.min_eq_left hcap.le, hl, List.length_take]
  generalize (s ++ if (encode s).length = maxToolOutput then [] else [replacement]) = shown
  dsimp only
  split
  · rw [List.nil_append]
  · rw [List.append_assoc]

theorem readRemote_success (base64 : Bytes → Bytes) (out err : Bytes) {rep : ExitReport}
    (he : rep.error = none) (hc : rep.code = 0) :
    readRemote base64 (.ok (capturedRun out err rep)) .text =
      .ok (.success (pushDropped (clip (out.take captureCap))
        ⟨out.length - captureCap, err.length - captureCap⟩)) := by
  have hfile : ∀ (o e : Bytes) (d : DroppedBytes),
      fileResult (RunReport.ofExit rep) o e d = none := by
    intro o e d
    simp [fileResult, RunReport.ofExit, he, hc]
  simp only [readRemote, call, capturedRun, Except.mapError, bind, Except.bind, hfile]
  rfl

/-- The buffers hold the fronts of the streams whatever the frames, and a text that was read is
shown whole or with notices that account for all of its bytes. -/
theorem captured_output_told (pre rest : List EventFrame) (rep : ExitReport)
    (hpre : ∀ f ∈ pre, f.isExit = false) :
    runCapturedCapped (pre ++ .exit rep :: rest) =
        .ok (capturedRun (payloads .out pre) (payloads .err pre) rep) ∧
      ∀ (base64 : Bytes → Bytes) (t : Text), rep.error = none → rep.code = 0 →
        payloads .out pre = encode t → (payloads .err pre).length ≤ captureCap →
        ∃ text, readRemote base64 (runCapturedCapped (pre ++ .exit rep :: rest)) .text =
            .ok (.success text) ∧
          ((encode t).length ≤ maxToolOutput → text = t) ∧
          (maxToolOutput < (encode t).length → Told t text) := by
  have hrun := runCapturedCapped_eq rest rep hpre
  refine ⟨hrun, fun base64 t he hc hout herr => ?_⟩
  rw [hrun, readRemote_success base64 _ _ he hc, hout, Nat.sub_eq_zero_of_le herr]
  refine ⟨_, rfl, fun hfit => ?_, fun hlong => ?_⟩
  · have hcap : (encode t).length ≤ captureCap := hfit.trans (by decide)
    rw [List.take_of_length_le hcap, clip_fits hfit, Nat.sub_eq_zero_of_le hcap]
    rfl
  · obtain ⟨s, hs, hclip⟩ := clip_capture hlong
    refine ⟨s, min captureCap (encode t).length, (encode t).length - captureCap, hs, by omega, ?_⟩
    dsimp only at hclip ⊢
    generalize (s ++ if (encode s).length = maxToolOutput then [] else [replacement]) = shown
      at hclip ⊢
    rw [hclip, ← List.append_assoc shown, ← List.append_assoc shown, ← List.append_assoc _ _
      (droppedNotice _ _)]
    exact pushDropped_line (getLast?_truncatedNotice _ _) _

/-- A short file in two frames. -/
theorem captured_output_told_sample :
    runCapturedCapped [.stdout [104], .stdout [105], .exit ⟨0, none, none, false⟩] =
        .ok (capturedRun [104, 105] [] ⟨0, none, none, false⟩) ∧
      ∃ text, readRemote id
          (runCapturedCapped [.stdout [104], .stdout [105], .exit ⟨0, none, none, false⟩]) .text =
        .ok (.success text) ∧ text = "hi".toList := by
  obtain ⟨hrun, hread⟩ := captured_output_told [.stdout [104], .stdout [105]] []
    ⟨0, none, none, false⟩ (by decide)
  obtain ⟨text, hr, hfit, -⟩ := hread id "hi".toList rfl rfl (by decide) (by decide)
  exact ⟨hrun, text, hr, hfit (by decide)⟩

end ShellProxy.Capture
