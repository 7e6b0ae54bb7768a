import ShellProxy.Lib.Base64
import ShellProxy.Capture
import ShellProxy.Quoting
import ShellProxy.Session

/-! The tools of the MCP server: what a call asks the daemon for, and what the agent is told of its
run. -/
namespace ShellProxy.Tools
open Frame HostPattern Utf8 Capture

/-- `check_timeout_ms`, for every caller-supplied timeout. -/
def maxTimeoutMs : Nat := 24 * 60 * 60 * 1000
def defaultTimeoutMs : Nat := 600000

def checkTimeoutMs (ms : Nat) : Except String Unit :=
  if maxTimeoutMs < ms then
    .error ("timeout of " ++ toString ms ++ " ms exceeds the maximum of " ++
      toString maxTimeoutMs ++ " ms (24 h)")
  else .ok ()

/-- `SP_HOST`, `SP_SESSION` and the host of `config.toml`, which may fail to load. -/
structure Settings where
  hostVar : Option String := none
  sessionVar : Option String := none
  configHost : Except Errors.Error (Option String) := .ok none
  configPath : String

inductive ToolError where
  | invalidParams (message : String)
  | internal (e : McpError)
  deriving DecidableEq, Repr

/-- The escapes of a refused character are Lean's. -/
def nameError : Session.SessionNameError → String
  | .empty => "session name must not be empty"
  | .tooLong len => "session name is " ++ toString len ++ " bytes long, the limit is " ++
      toString Session.maxLen
  | .badChar c => "session name contains " ++ c.quote ++
      "; allowed characters are A-Z a-z 0-9 . _ -"

def configResolveHost (s : Settings) : Option String → Except Errors.Error String
  | some h => .ok h
  | none =>
    match s.hostVar.filter (· != "") with
    | some h => .ok h
    | none => do
      let host ← s.configHost
      match host.filter (· != "") with
      | some h => .ok h
      | none => .error (.config
          ("no host configured; pass --host, set SP_HOST, or set `host` in " ++ s.configPath))

def configResolveSession (s : Settings) : Option String → Except Errors.Error String
  | some name => named "invalid session name: " name
  | none =>
    match s.sessionVar.filter (· != "") with
    | some name => named "SP_SESSION: " name
    | none => .ok Session.defaultName
where
  named (front name : String) : Except Errors.Error String :=
    ((Session.SessionId.parse name).mapError fun e => .config (front ++ nameError e)).map (·.name)

/-- An empty argument is a caller error. -/
def resolveHost (s : Settings) (arg : Option String) : Except ToolError String :=
  if arg = some "" then .error (.invalidParams "host must not be empty")
  else (configResolveHost s arg).mapError fun e => .invalidParams e.brief

def resolveSession (s : Settings) (arg : Option String) : Except ToolError String :=
  (configResolveSession s arg).mapError fun e => .invalidParams e.brief

structure Engine where
  encode : Bytes → Bytes
  decode : Bytes → Except String Bytes

/-- Standard alphabet, padding indifferent. -/
structure Engine.Standard (E : Engine) : Prop where
  encode : ∀ b, E.encode b = Base64.encode b
  decode : ∀ t b, E.decode t = .ok b ↔ Base64.decode t = some b

structure ExecParams where
  command : String
  cwd : Option String := none
  timeoutMs : Option Nat := none
  host : Option String := none
  session : Option String := none

structure ReadFileParams where
  path : Text
  host : Option String := none
  session : Option String := none

structure WriteFileParams where
  path : Text
  content : Text
  host : Option String := none
  session : Option String := none

structure WriteFileBinaryParams where
  path : Text
  contentB64 : Text
  host : Option String := none
  session : Option String := none

/-- A call: its request, its stdin, and what is made of its run. -/
structure Call where
  req : ExecRequest
  stdin : Bytes := []
  render : Except Errors.Error Run → Except McpError CallToolResult

/-- The front of a section is a line, so only a stream can leave a line open. -/
def closeLine (out : Text) (bytes : Bytes) : Text :=
  if bytes ≠ [] ∧ out.getLast? ≠ some '\n' then out ++ ['\n'] else out

def formatReport (report : ClientRun.RunReport) (stdout stderr : Bytes) (dropped : DroppedBytes) :
    Text :=
  let out := line ("exit_code: " ++ toString report.code)
  let out := out ++ (report.error.elim [] fun e => line ("error: " ++ e))
  let out := out ++ (if report.timedOut then line "timed_out: true" else [])
  let out := out ++ line "--- stdout ---"
  let out := closeLine (out ++ clip stdout) stdout
  let out := out ++ line "--- stderr ---"
  let out := closeLine (out ++ clip stderr) stderr
  let out := out ++ (report.cwd.elim [] fun cwd => line ("cwd: " ++ cwd))
  pushDropped out dropped

/-- Any other code than zero and any error make a failed call. -/
def execResult (run : Except Errors.Error Run) : Except McpError CallToolResult := do
  let (report, stdout, stderr, dropped) ← call run
  let text := formatReport report stdout stderr dropped
  if report.code ≠ 0 ∨ report.error.isSome then return .error text else return .success text

def writeRemote (path : Text) (len : Nat) (run : Except Errors.Error Run) :
    Except McpError CallToolResult := do
  let (report, _, stderr, dropped) ← call run
  match fileResult report [] stderr dropped with
  | some err => return .error err
  | none =>
    let text := "wrote ".toList ++ path ++ (" (" ++ toString len ++ " bytes)").toList
    return .success (pushDropped text dropped)

def exec (s : Settings) (p : ExecParams) : Except ToolError Call := do
  let host ← resolveHost s p.host
  let session ← resolveSession s p.session
  let timeoutMs := p.timeoutMs.getD defaultTimeoutMs
  (checkTimeoutMs timeoutMs).mapError .invalidParams
  return {
    req := { host, command := p.command, cwd := p.cwd, timeoutMs := some timeoutMs,
             session := some session }
    render := execResult }

def readTool (E : Engine) (encoding : OutputEncoding) (s : Settings) (p : ReadFileParams) :
    Except ToolError Call := do
  let host ← resolveHost s p.host
  let session ← resolveSession s p.session
  return {
    req := Quoting.downloadRequest host session p.path none (some defaultTimeoutMs)
    render := fun run => readRemote E.encode run encoding }

def readFile (E : Engine) : Settings → ReadFileParams → Except ToolError Call := readTool E .text
def readFileBinary (E : Engine) : Settings → ReadFileParams → Except ToolError Call :=
  readTool E .base64

def writeFile (s : Settings) (p : WriteFileParams) : Except ToolError Call := do
  let host ← resolveHost s p.host
  let session ← resolveSession s p.session
  let content := encode p.content
  return {
    req := Quoting.uploadRequest host session p.path none (some defaultTimeoutMs)
    stdin := content
    render := writeRemote p.path content.length }

def writeFileBinary (E : Engine) (s : Settings) (p : WriteFileBinaryParams) :
    Except ToolError Call := do
  let host ← resolveHost s p.host
  let session ← resolveSession s p.session
  let content ← (E.decode (encode p.contentB64)).mapError fun e =>
    .invalidParams ("content_b64: " ++ e)
  return {
    req := Quoting.uploadRequest host session p.path none (some defaultTimeoutMs)
    stdin := content
    render := writeRemote p.path content.length }

section Render
variable {ε α β : Type} {run : Except Errors.Error Run} {text : Text}

theorem bind_ok {x : Except ε α} {f : α → Except ε β} {b : β} :
    (x >>= f) = .ok b ↔ ∃ a, x = .ok a ∧ f a = .ok b := by
  cases x <;> simp [bind, Except.bind]

theorem mapError_ok {ε' : Type} {x : Except ε α} {g : ε → ε'} {a : α} :
    x.mapError g = .ok a ↔ x = .ok a := by
  cases x <;> simp [Except.mapError]

theorem call_ok {r : Run} : call run = .ok r ↔ run = .ok r := mapError_ok

theorem fileResult_none {report : ClientRun.RunReport} {out err : Bytes} {dropped : DroppedBytes} :
    fileResult report out err dropped = none ↔ report.error = none ∧ report.code = 0 := by
  unfold fileResult
  cases report.error <;> simp

/-- The text that a read shows. -/
def coded (E : Engine) (encoding : OutputEncoding) (bytes : Bytes) : Bytes :=
  match encoding with
  | .text => bytes
  | .base64 => E.encode bytes

theorem read_success {E : Engine} {encoding : OutputEncoding}
    (h : readRemote E.encode run encoding = .ok (.success text)) :
    ∃ report out err dropped, run = .ok (report, out, err, dropped) ∧ report.error = none ∧
      report.code = 0 ∧ text = pushDropped (clip (coded E encoding out)) dropped := by
  obtain ⟨⟨report, out, err, dropped⟩, hrun, hrest⟩ := bind_ok.mp h
  refine ⟨report, out, err, dropped, call_ok.mp hrun, ?_⟩
  dsimp only at hrest
  split at hrest
  · cases hrest
  · rename_i hnone
    obtain ⟨he, hc⟩ := fileResult_none.mp hnone
    refine ⟨he, hc, ?_⟩
    cases encoding <;> simp only [pure, Except.pure, Except.ok.injEq, CallToolResult.success.injEq]
      at hrest <;> exact hrest.symm

theorem write_success {path : Text} {len : Nat}
    (h : writeRemote path len run = .ok (.success text)) :
    ∃ report out err dropped, run = .ok (report, out, err, dropped) ∧ report.error = none ∧
      report.code = 0 ∧
      text = pushDropped ("wrote ".toList ++ path ++ (" (" ++ toString len ++ " bytes)").toList)
        dropped := by
  obtain ⟨⟨report, out, err, dropped⟩, hrun, hrest⟩ := bind_ok.mp h
  refine ⟨report, out, err, dropped, call_ok.mp hrun, ?_⟩
  dsimp only at hrest
  split at hrest
  · cases hrest
  · rename_i hnone
    obtain ⟨he, hc⟩ := fileResult_none.mp hnone
    simp only [pure, Except.pure, Except.ok.injEq, CallToolResult.success.injEq] at hrest
    exact ⟨he, hc, hrest.symm⟩

theorem exec_success (h : execResult run = .ok (.success text)) :
    ∃ report out err dropped, run = .ok (report, out, err, dropped) ∧ report.error = none ∧
      report.code = 0 ∧ text = formatReport report out err dropped := by
  obtain ⟨⟨report, out, err, dropped⟩, hrun, hrest⟩ := bind_ok.mp h
  refine ⟨report, out, err, dropped, call_ok.mp hrun, ?_⟩
  dsimp only at hrest
  split at hrest
  · cases hrest
  · rename_i hgood
    simp only [pure, Except.pure, Except.ok.injEq, CallToolResult.success.injEq] at hrest
    simp only [not_or, ne_eq, not_not, Bool.not_eq_true, Option.isSome_eq_false_iff,
      Option.isNone_iff_eq_none] at hgood
    exact ⟨hgood.2, hgood.1, hrest.symm⟩

end Render

/-- A section as the agent reads it: a line break at its end, and a notice behind a cut. -/
def told (bytes : Bytes) : Text :=
  if bytes = [] then []
  else
    let s := lossy (bytes.take maxToolOutput)
    (if s.getLast? = some '\n' then s else s ++ ['\n']) ++
      if bytes.length ≤ maxToolOutput then []
      else truncatedNotice (min captureCap bytes.length)

/-- What an agent reads of a command whose streams were `out` and `err`. -/
def reportText (report : ClientRun.RunReport) (out err : Bytes) : Text :=
  line ("exit_code: " ++ toString report.code) ++
    (report.error.elim [] fun e => line ("error: " ++ e)) ++
    (if report.timedOut then line "timed_out: true" else []) ++ line "--- stdout ---" ++ told out ++
    line "--- stderr ---" ++ told err ++ (report.cwd.elim [] fun cwd => line ("cwd: " ++ cwd)) ++
    (droppedNotice (out.length - captureCap) "stdout" ++
      droppedNotice (err.length - captureCap) "stderr")

section Text
variable {front : Text}

theorem line_last (s : String) : (front ++ line s).getLast? = some '\n' := by
  rw [line, ← List.append_assoc, List.getLast?_concat]

theorem getLast_behind {s : Text} (hs : s ≠ []) : (front ++ s).getLast? = s.getLast? := by
  rw [List.getLast?_append_of_ne_nil _ hs]

theorem section_told (bytes : Bytes) :
    closeLine (front ++ clip (bytes.take captureCap)) (bytes.take captureCap) =
      front ++ told bytes := by
  have hcap : maxToolOutput < captureCap := by decide
  by_cases hb : bytes = []
  · subst hb
    simp [closeLine, told, clip, lossy, feed, finish]
  · have hs : lossy (bytes.take maxToolOutput) ≠ [] := by
      apply lossy_ne_nil
      rw [Ne, List.take_eq_nil_iff, not_or]
      exact ⟨by decide, hb⟩
    have ht : bytes.take captureCap ≠ [] := by
      rw [Ne, List.take_eq_nil_iff, not_or]
      exact ⟨by decide, hb⟩
    rw [told, if_neg hb, closeLine, clip, List.length_take]
    by_cases hfit : bytes.length ≤ maxToolOutput
    · have hmin : min captureCap bytes.length ≤ maxToolOutput := by omega
      rw [List.take_of_length_le (i := captureCap) (by omega)] at ht ⊢
      rw [List.take_of_length_le hfit] at hs ⊢
      rw [if_pos hmin, if_pos hfit, getLast_behind hs]
      by_cases hn : (lossy bytes).getLast? = some '\n' <;> simp [ht, hn]
    · have hmin : ¬ min captureCap bytes.length ≤ maxToolOutput := by omega
      rw [if_neg hmin, if_neg hfit, List.take_take, Nat.min_eq_left hcap.le]
      rw [if_neg]
      rw [← List.append_assoc, getLast?_truncatedNotice]
      simp

theorem ended_last (s : Text) :
    (if s.getLast? = some '\n' then s else s ++ ['\n']).getLast? = some '\n' := by
  split
  · assumption
  · rw [List.getLast?_concat]

theorem told_last (bytes : Bytes) (h : front.getLast? = some '\n') :
    (front ++ told bytes).getLast? = some '\n' := by
  rw [told]
  split
  · rwa [List.append_nil]
  · have hended := ended_last (lossy (bytes.take maxToolOutput))
    dsimp only
    generalize (if (lossy (bytes.take maxToolOutput)).getLast? = some '\n' then _ else _) = ended
      at hended ⊢
    split
    · have hne : ended ≠ [] := by
        rintro rfl
        cases hended
      rw [List.append_nil, getLast_behind hne, hended]
    · rw [← List.append_assoc, getLast?_truncatedNotice]

theorem pushDropped_behind {out : Text} (h : out.getLast? = some '\n') (d : DroppedBytes) :
    pushDropped out d =
      out ++ (droppedNotice d.stdout "stdout" ++ droppedNotice d.stderr "stderr") := by
  unfold pushDropped
  split
  · rename_i hnone
    simp [droppedNotice, hnone]
  · rw [if_neg (by simp [h])]

theorem pushDropped_front (out : Text) (d : DroppedBytes) :
    ∃ rest, pushDropped out d = out ++ rest := by
  unfold pushDropped
  split
  · exact ⟨[], (List.append_nil _).symm⟩
  · split
    · exact ⟨_, List.append_assoc _ _ _⟩
    · exact ⟨_, rfl⟩

theorem formatReport_told (report : ClientRun.RunReport) (out err : Bytes) :
    formatReport report (out.take captureCap) (err.take captureCap)
      ⟨out.length - captureCap, err.length - captureCap⟩ = reportText report out err := by
  have hcwd {front : Text} (h : front.getLast? = some '\n') :
      (front ++ (report.cwd.elim [] fun cwd => line ("cwd: " ++ cwd))).getLast? = some '\n' := by
    cases report.cwd with
    | none => simpa using h
    | some cwd => exact line_last _
  simp only [formatReport]
  rw [section_told out, section_told err,
    pushDropped_behind (hcwd (told_last err (line_last _)))]
  rfl

end Text

section Calls
variable {E : Engine} {s : Settings} {c : Call}

theorem exec_ok {p : ExecParams} (h : exec s p = .ok c) : c.render = execResult := by
  obtain ⟨host, -, h⟩ := bind_ok.mp h
  obtain ⟨session, -, h⟩ := bind_ok.mp h
  obtain ⟨u, -, h⟩ := bind_ok.mp h
  simp only [pure, Except.pure, Except.ok.injEq] at h
  rw [← h]

theorem readTool_ok {encoding : OutputEncoding} {p : ReadFileParams}
    (h : readTool E encoding s p = .ok c) :
    ∃ host session, c.req = Quoting.downloadRequest host session p.path none
        (some defaultTimeoutMs) ∧ c.render = fun run => readRemote E.encode run encoding := by
  obtain ⟨host, -, h⟩ := bind_ok.mp h
  obtain ⟨session, -, h⟩ := bind_ok.mp h
  simp only [pure, Except.pure, Except.ok.injEq] at h
  rw [← h]
  exact ⟨host, session, rfl, rfl⟩

/-- A call that writes `content` to a path. -/
structure Writes (c : Call) (path : Text) (content : Bytes) : Prop where
  req : ∃ host session, c.req = Quoting.uploadRequest host session path none
    (some defaultTimeoutMs)
  stdin : c.stdin = content
  render : c.render = writeRemote path content.length

theorem writeFile_ok {p : WriteFileParams} (h : writeFile s p = .ok c) :
    Writes c p.path (encode p.content) := by
  obtain ⟨host, -, h⟩ := bind_ok.mp h
  obtain ⟨session, -, h⟩ := bind_ok.mp h
  simp only [pure, Except.pure, Except.ok.injEq] at h
  rw [← h]
  exact ⟨⟨host, session, rfl⟩, rfl, rfl⟩

theorem writeFileBinary_ok {p : WriteFileBinaryParams} (h : writeFileBinary E s p = .ok c) :
    ∃ content, E.decode (encode p.contentB64) = .ok content ∧ Writes c p.path content := by
  obtain ⟨host, -, h⟩ := bind_ok.mp h
  obtain ⟨session, -, h⟩ := bind_ok.mp h
  obtain ⟨content, hcontent, h⟩ := bind_ok.mp h
  simp only [pure, Except.pure, Except.ok.injEq] at h
  rw [← h]
  exact ⟨content, mapError_ok.mp hcontent, ⟨host, session, rfl⟩, rfl, rfl⟩

end Calls

end ShellProxy.Tools
