import ShellProxy.PushPull
import ShellProxy.Pull
import ShellProxy.Tools
import ShellProxy.Upload

/-! The tools over whole runs: the sinks of a captured run beside the client's loop, and that what
an agent is told of a command, of a file it reads or of one it writes is so. -/
namespace ShellProxy.ToolRuns
open Frame HostPattern Utf8 Capture Machine RemoteRun Tools
variable {J : Codec.EventJson}

/-- A run of `run_captured_capped`: its sinks get what the loop writes. -/
structure Recording where
  x : Execution
  sinks : Captured := {}

def Recording.record (c : Recording) (y : Execution) : Recording where
  x := y
  sinks :=
    { stdout := c.sinks.stdout.writeAll (y.client.stdout.drop c.x.client.stdout.length)
      stderr := c.sinks.stderr.writeAll (y.client.stderr.drop c.x.client.stderr.length) }

def record (f : Execution → Ev → Option Execution) (c : Recording) (e : Ev) : Option Recording :=
  (f c.x e).map c.record

/-- What `run_captured_capped` returns once the loop has ended. -/
def Recording.outcome (c : Recording) : Option (Except Errors.Error Run) :=
  c.x.client.result.map fun o => o.map fun report =>
    (report, c.sinks.stdout.buf, c.sinks.stderr.buf,
      ⟨c.sinks.stdout.dropped, c.sinks.stderr.dropped⟩)

section Record
variable {f : Execution → Ev → Option Execution} {c d : Recording} {x y : Execution} {e : Ev}
  {req : ExecRequest} {es : List Ev} {k k' : ClientRun.Client} {s : Stream}

theorem put_grows (t : Stream) (b : Bytes) : k.delivered s <+: (k.put t b).delivered s := by
  rw [ClientRun.delivered_put]
  exact List.prefix_append _ _

theorem again_same (k : ClientRun.Client) (s : Stream) : k.again.delivered s = k.delivered s := by
  cases s <;> rfl

theorem finish_same (k : ClientRun.Client) (o : Except Errors.Error ClientRun.RunReport)
    (s : Stream) : (k.finish o).delivered s = k.delivered s := by cases s <;> rfl

theorem send_same (g : ExecFrame ExecRequest) (w : Except String Unit) :
    (k.send g w).delivered s = k.delivered s := by
  cases w <;> cases s <;> rfl

theorem deliver_grows (t : Stream) (b : Bytes) (sink : Option (Nat × String)) :
    k.delivered s <+: (k.deliver t b sink).delivered s := by
  cases sink with
  | none =>
    rw [ClientRun.Client.deliver, again_same]
    exact put_grows t b
  | some w =>
    rw [ClientRun.Client.deliver, finish_same]
    exact put_grows t _

theorem onFrame_grows (sink : Option (Nat × String))
    (r : Except Error (Option EventFrame)) : k.delivered s <+: (k.onFrame sink r).delivered s := by
  cases r with
  | error e => exact (finish_same k _ s).symm ▸ List.prefix_rfl
  | ok o =>
    cases o with
    | none => exact (finish_same k _ s).symm ▸ List.prefix_rfl
    | some g =>
      cases g with
      | stdout b => exact deliver_grows .out b sink
      | stderr b => exact deliver_grows .err b sink
      | exit rep => exact (finish_same k _ s).symm ▸ List.prefix_rfl
      | pong p => exact (again_same k s).symm ▸ List.prefix_rfl

theorem client_grows {i : ClientRun.Input} (hs : ClientRun.step J k i = some k') (s : Stream) :
    k.delivered s <+: k'.delivered s := by
  have hr := ClientRun.step_running hs
  simp only [ClientRun.step, hr, Option.isSome_none, Bool.false_eq_true, if_false] at hs
  cases i with
  | stdin n w =>
    obtain ⟨-, hc⟩ := Option.ite_none_right_eq_some.mp hs
    obtain rfl := Option.some.inj hc
    cases n with
    | error m => cases s <;> exact List.prefix_rfl
    | ok b =>
      cases b with
      | nil =>
        rw [ClientRun.Client.onStdin, send_same]
        cases s <;> exact List.prefix_rfl
      | cons b bs =>
        have hsame : (k.onStdin w (.ok (b :: bs))).delivered s = k.delivered s := send_same _ w
        exact hsame ▸ List.prefix_rfl
  | read n sink =>
    obtain ⟨-, hc⟩ := Option.ite_none_right_eq_some.mp hs
    obtain rfl := Option.some.inj hc
    have htake (st) : (k.take n st).delivered s = k.delivered s := by cases s <;> rfl
    unfold ClientRun.Client.onRead
    split
    · rw [htake]
    · exact htake .new ▸ onFrame_grows sink _
  | readErr m =>
    obtain rfl := Option.some.inj hs
    exact onFrame_grows none _
  | eof =>
    obtain ⟨-, hc⟩ := Option.ite_none_right_eq_some.mp hs
    obtain rfl := Option.some.inj hc
    exact onFrame_grows none _
  | signal sig now w =>
    obtain ⟨-, hc⟩ := Option.ite_none_right_eq_some.mp hs
    obtain rfl := Option.some.inj hc
    cases sig with
    | none => cases s <;> exact List.prefix_rfl
    | some g =>
      cases g with
      | int =>
        rw [ClientRun.Client.onSignal]
        split
        · cases s <;> exact List.prefix_rfl
        · rw [send_same]
          cases s <;> exact List.prefix_rfl
      | term | kill | hup =>
        rw [ClientRun.Client.onSignal, send_same]
        simp

theorem streams_grow (hs : RemoteRun.step J x e = some y) (s : Stream) :
    x.client.delivered s <+: y.client.delivered s := by
  cases e with
  | client i =>
    obtain ⟨k, hk, rfl⟩ := Option.map_eq_some_iff.mp hs
    exact client_grows hk s
  | path e =>
    have hquiet (hm : (OutputPath.step J x.world e).map (fun w => { x with world := w }) = some y) :
        x.client.delivered s <+: y.client.delivered s := by
      obtain ⟨w, -, rfl⟩ := Option.map_eq_some_iff.mp hm
      exact List.prefix_rfl
    cases e with
    | serve e | deliver n | log b | status n | closed => exact hquiet hs
    | daemon e =>
      cases e with
      | emit =>
        rw [RemoteRun.step] at hs
        split at hs
        · cases hs
        · obtain ⟨-, hs⟩ := Option.ite_none_right_eq_some.mp hs
          obtain ⟨w, -, rfl⟩ := Option.map_eq_some_iff.mp hs
          cases s <;> exact List.prefix_rfl
      | linkEnds | recv | handle | finished | giveUp | ping | pongSent | bridgeTake | bridgeSend
      | joined | report => exact hquiet hs

/-- The sinks have seen what the client wrote. -/
structure Recorded (c : Recording) : Prop where
  stdout : c.sinks.stdout.Holds c.x.client.stdout
  stderr : c.sinks.stderr.Holds c.x.client.stderr

theorem recorded_step (h : Recorded c)
    (hf : ∀ x e y, f x e = some y → RemoteRun.step J x e = some y) (hs : record f c e = some d) : Recorded d := by
  obtain ⟨y, hy, rfl⟩ := Option.map_eq_some_iff.mp hs
  have hstep := hf _ _ _ hy
  have hout : c.x.client.stdout <+: y.client.stdout := streams_grow hstep .out
  have herr : c.x.client.stderr <+: y.client.stderr := streams_grow hstep .err
  refine ⟨?_, ?_⟩
  · have hw := h.stdout.write (y.client.stdout.drop c.x.client.stdout.length)
    rwa [List.prefix_iff_eq_append.mp hout] at hw
  · have hw := h.stderr.write (y.client.stderr.drop c.x.client.stderr.length)
    rwa [List.prefix_iff_eq_append.mp herr] at hw

/-- What a call gets of its run is the fronts of what the client wrote, and how much is missing. -/
theorem outcome_eq (h : Recorded c) : c.outcome = c.x.client.result.map fun o =>
    o.map fun report => (report, c.x.client.stdout.take captureCap,
      c.x.client.stderr.take captureCap,
      ⟨c.x.client.stdout.length - captureCap, c.x.client.stderr.length - captureCap⟩) := by
  rw [Recording.outcome, h.stdout.buf, h.stdout.dropped, h.stderr.buf, h.stderr.dropped]

theorem run_recorded {ok : Execution → Ev → Prop} (h : Path f ok x es y) (a : Captured) :
    ∃ b, Path (record f) (fun c => ok c.x) ⟨x, a⟩ es ⟨y, b⟩ := by
  induction h with
  | refl => exact ⟨a, .refl⟩
  | tail _ hok hs ih =>
    obtain ⟨b, hb⟩ := ih
    exact ⟨_, hb.tail hok (by rw [record, hs]; rfl)⟩

theorem outcome_ok (h : Recorded c) {report : ClientRun.RunReport} {out err : Bytes}
    {dropped : DroppedBytes} (ho : c.outcome = some (.ok (report, out, err, dropped))) :
    c.x.client.result = some (.ok report) ∧ out = c.x.client.stdout.take captureCap ∧
      err = c.x.client.stderr.take captureCap ∧
      dropped = ⟨c.x.client.stdout.length - captureCap, c.x.client.stderr.length - captureCap⟩ := by
  rw [outcome_eq h] at ho
  obtain ⟨o, hresult, ho⟩ := Option.map_eq_some_iff.mp ho
  cases o with
  | error e => cases ho
  | ok r =>
    simp only [Except.map, Except.ok.injEq, Prod.mk.injEq] at ho
    obtain ⟨rfl, rfl, rfl, rfl⟩ := ho
    exact ⟨hresult, rfl, rfl, rfl⟩

theorem record_run (hf : ∀ x e y, f x e = some y → RemoteRun.step J x e = some y)
    (h : Path (record f) (fun c => Sound J c.x) ⟨start req, {}⟩ es d) :
    Path f (Sound J) (start req) es d.x ∧ Recorded d := by
  induction h with
  | refl => exact ⟨.refl, CappedSink.holds_start, CappedSink.holds_start⟩
  | tail _ hok hs ih =>
    obtain ⟨y, hy, hd⟩ := Option.map_eq_some_iff.mp hs
    refine ⟨?_, recorded_step ih.2 hf hs⟩
    rw [← hd]
    exact ih.1.tail hok hy

end Record

theorem succeeded {x : Execution} (h : RemoteRun.Inv J x) {report : ClientRun.RunReport}
    (hr : x.client.result = some (.ok report)) (hz : report.code = 0) :
    ∃ r, x.world.serve.report = some r ∧ report = ⟨r.code, r.cwd, r.timedOut, none⟩ ∧
      ∀ s, x.client.delivered s = payloads s x.world.serve.queued := by
  have hcode : exitCode (.ok report) ≠ internalErrorCode := by
    have hrange : (0 : Int) ≤ 0 ∧ (0 : Int) ≤ 255 := by decide
    rw [exitCode, hz, if_pos hrange]
    split <;> decide
  rcases ended_cases h hr hcode with hforced | ⟨r, hserve, ho, hall⟩
  · rw [Except.ok.inj hforced] at hz
    exact absurd hz (by decide)
  · exact ⟨r, hserve, Except.ok.inj ho, hall⟩

/-- An `exec` call that is no failure is one whose command serve saw exit with zero, and its text
shows all that serve's pumps took of both streams, or says how much of it is left out. -/
theorem exec_tells_all (hJ : J.Lawful) (s : Settings) (p : ExecParams) (c : Call)
    (hc : exec s p = .ok c) (es : List Ev) (d : Recording)
    (h : Path (record (RemoteRun.step J)) (fun c => Sound J c.x) ⟨start c.req, {}⟩ es d)
    (run : Except Errors.Error Run) (ho : d.outcome = some run) (text : Text)
    (ht : c.render run = .ok (.success text)) :
    ∃ r, d.x.world.serve.report = some r ∧ r.code = 0 ∧
      text = reportText ⟨0, r.cwd, r.timedOut, none⟩ (payloads .out d.x.world.serve.queued)
        (payloads .err d.x.world.serve.queued) ∧
      ∀ t, d.x.world.serve.drained = some true → (d.x.world.serve.pipes t).pump ≠ .failed →
        payloads t d.x.world.serve.queued = (d.x.world.serve.pipes t).written := by
  obtain ⟨hrun, hrec⟩ := record_run (fun _ _ _ hs => hs) h
  have hinv := RemoteRun.inv_run hJ hrun
  rw [exec_ok hc] at ht
  obtain ⟨report, out, err, dropped, rfl, he, hz, rfl⟩ := exec_success ht
  obtain ⟨hresult, rfl, rfl, rfl⟩ := outcome_ok hrec ho
  obtain ⟨r, hr, hrep, hall⟩ := succeeded hinv hresult hz
  refine ⟨r, hr, ?_, ?_, fun t hd hp => ServeOutput.payloads_complete hinv.world.serve hr hd hp⟩
  · rw [hrep] at hz
    exact hz
  · rw [formatReport_told, ← hall .out, ← hall .err, hrep]
    rw [hrep] at hz
    rw [show r.code = 0 from hz]
    rfl

def sampleSettings : Settings := { configPath := "config.toml" }

def sampleExec : ExecParams := { command := "x", host := some "h" }

theorem outcome_of_result {c : Recording} {report : ClientRun.RunReport}
    (h : c.x.client.result = some (.ok report)) :
    ∃ out err dropped, c.outcome = some (.ok (report, out, err, dropped)) := by
  rw [Recording.outcome, h]
  exact ⟨_, _, _, rfl⟩

theorem exec_tells_all_sample : ∃ c d run text, exec sampleSettings sampleExec = .ok c ∧
    Path (record (RemoteRun.step Codec.sampleJson)) (fun c => Sound Codec.sampleJson c.x)
      ⟨start c.req, {}⟩ (sampleServe 2 sampleDrain ++ sampleClient 2) d ∧
    d.outcome = some run ∧ c.render run = .ok (.success text) ∧
    ∃ r, d.x.world.serve.report = some r ∧ text = reportText ⟨0, r.cwd, r.timedOut, none⟩
      (payloads .out d.x.world.serve.queued) (payloads .err d.x.world.serve.queued) := by
  obtain ⟨c, hc⟩ : ∃ c, exec sampleSettings sampleExec = .ok c := ⟨_, rfl⟩
  obtain ⟨x, hpath, hresult, -⟩ := sample_run c.req
  obtain ⟨b, hd⟩ := run_recorded hpath {}
  obtain ⟨out, err, dropped, ho⟩ := @outcome_of_result ⟨x, b⟩ _ hresult
  obtain ⟨text, ht⟩ : ∃ text,
      c.render (.ok (⟨0, none, false, none⟩, out, err, dropped)) = .ok (.success text) := by
    rw [exec_ok hc]
    exact ⟨_, rfl⟩
  obtain ⟨r, hr, -, htext, -⟩ := exec_tells_all Codec.sampleJson_lawful sampleSettings sampleExec c
    hc _ _ hd _ ho _ ht
  exact ⟨c, _, _, _, hc, hd, ho, ht, r, hr, htext⟩

theorem read_front (hJ : J.Lawful) {E : Engine} {encoding : OutputEncoding} {s : Settings}
    {p : ReadFileParams} {c : Call} (hc : readTool E encoding s p = .ok c) {file : Bytes}
    {es : List Ev} {d : Recording}
    (h : Path (record (Pull.step J file)) (fun c => Sound J c.x) ⟨start c.req, {}⟩ es d)
    {run : Except Errors.Error Run} (ho : d.outcome = some run) {text : Text}
    (ht : c.render run = .ok (.success text)) (hd : d.x.world.serve.drained = some true)
    (hp : (d.x.world.serve.pipes .out).pump ≠ .failed) :
    text = pushDropped (clip (coded E encoding (file.take captureCap)))
      ⟨file.length - captureCap, (payloads .err d.x.world.serve.queued).length - captureCap⟩ := by
  obtain ⟨hrun, hrec⟩ := record_run (fun _ _ _ hs => (Pull.step_run hs).1) h
  have hinv := Pull.inv_run hJ hrun
  obtain ⟨host, session, -, hrender⟩ := readTool_ok hc
  rw [hrender] at ht
  obtain ⟨report, out, err, dropped, rfl, he, hz, rfl⟩ := read_success ht
  obtain ⟨hresult, rfl, rfl, rfl⟩ := outcome_ok hrec ho
  obtain ⟨r, hr, hrep, hall⟩ := succeeded hinv.run hresult hz
  have hzero : r.code = 0 := by
    rw [hrep] at hz
    exact hz
  have hout : d.x.client.stdout = file := (hall .out).trans (hinv.whole hr hzero hd hp)
  have herr : d.x.client.stderr = payloads .err d.x.world.serve.queued := hall .err
  rw [hout, herr]

theorem read_fits {t : Text} (h : (encode t).length ≤ maxToolOutput) :
    pushDropped (clip (encode t)) ⟨0, 0⟩ = t := by
  rw [clip_fits h]
  rfl

def sampleEngine : Engine where
  encode := Base64.encode
  decode t := ((Base64.decode t).map Except.ok).getD (.error "invalid base64")

theorem sampleEngine_standard : sampleEngine.Standard where
  encode _ := rfl
  decode t b := by
    cases hd : Base64.decode t <;> simp [sampleEngine, hd]

variable {I : Type} {K : ControlLoop.Clock I} {X : Codec.ExecJson ServeExec}

/-- When a write tool says that it wrote so many bytes, the remote command has copied them all: the
text of `write_file`, or what the base64 of `write_file_binary` stands for. -/
theorem write_success_whole (hJ : J.Lawful) (hX : X.Lawful) (hS : InputLanes.SignalsEncode X)
    (E : Engine) (s : Settings) (p : WriteFileParams ⊕ WriteFileBinaryParams) (c : Call)
    (hc : p.elim (writeFile s) (writeFileBinary E s) = .ok c) (src : Push.Source)
    (hsrc : src.bytes = c.stdin) (l : ControlLoop.Loop I) (es : List (Upload.Ev I))
    (t : Upload.Transfer I)
    (h : Path (Upload.step K J X) Upload.Sound (Upload.start c.req src l) es t)
    (report : ClientRun.RunReport) (hr : t.client.result = some (.ok report)) (out err : Bytes)
    (dropped : DroppedBytes) (text : Text)
    (ht : c.render (.ok (report, out, err, dropped)) = .ok (.success text)) :
    ∃ content, t.cat = some content ∧
      p.elim (fun w => content = encode w.content)
        (fun w => E.decode (encode w.contentB64) = .ok content) ∧
      ∃ rest, text = "wrote ".toList ++ p.elim (·.path) (·.path) ++
        (" (" ++ toString content.length ++ " bytes)").toList ++ rest := by
  obtain ⟨u, href, hi⟩ := Upload.refined hJ hX hS h
  obtain ⟨content, hmeant, hwrites⟩ : ∃ content,
      p.elim (fun w => content = encode w.content)
        (fun w => E.decode (encode w.contentB64) = .ok content) ∧
      Writes c (p.elim (·.path) (·.path)) content := by
    cases p with
    | inl w => exact ⟨_, rfl, writeFile_ok hc⟩
    | inr w => exact writeFileBinary_ok hc
  rw [hwrites.render] at ht
  obtain ⟨report', out', err', dropped', hrun, he, hz, rfl⟩ := write_success ht
  obtain ⟨rfl, rfl, rfl, rfl⟩ :
      report = report' ∧ out = out' ∧ err = err' ∧ dropped = dropped' := by
    simpa using hrun
  obtain ⟨hcat, -⟩ := href.whole hi hr hz he
  refine ⟨content, ?_, hmeant, ?_⟩
  · rw [hcat, hsrc, hwrites.stdin]
  · exact pushDropped_front _ _

theorem write_success_whole_sample : ∃ c t text,
    writeFile sampleSettings { path := ['x'], content := ['a'], host := some "h" } = .ok c ∧
    Path Upload.sampleStep Upload.Sound (Upload.sampleStart c.req)
      (Upload.sampleReads ++ Upload.sampleRun) t ∧
    c.render (.ok (⟨0, none, false, none⟩, [], [], {})) = .ok (.success text) ∧
    t.cat = some (encode ['a']) := by
  obtain ⟨c, hc⟩ : ∃ c, writeFile sampleSettings
    { path := ['x'], content := ['a'], host := some "h" } = .ok c := ⟨_, rfl⟩
  obtain ⟨t, hpath, hresult⟩ := Upload.sample_transfer c.req
  have hwrites := writeFile_ok hc
  obtain ⟨text, ht⟩ : ∃ text,
      c.render (.ok (⟨0, none, false, none⟩, [], [], {})) = .ok (.success text) := by
    rw [hwrites.render]
    exact ⟨_, rfl⟩
  have hsrc : (Push.sampleSource none).bytes = c.stdin := by
    rw [hwrites.stdin]
    decide
  obtain ⟨content, hcat, hcontent, -⟩ := write_success_whole Codec.sampleJson_lawful
    InputLanes.sampleExec_lawful InputLanes.sampleExec_signals sampleEngine sampleSettings
    (.inl { path := ['x'], content := ['a'], host := some "h" }) c hc (Push.sampleSource none) hsrc
    _ _ t hpath _ hresult [] [] {} text ht
  obtain rfl : content = encode ['a'] := hcontent
  exact ⟨c, t, text, hc, hpath, ht, hcat⟩

section RoundTrip
open PushPull
variable {k : Cat} {r after : Remote} {path : Text} {content : Bytes}

theorem read_back (l : Shell.Listing) {host session host' session' : String}
    {cwd cwd' : Option String} {ms ms' : Option Nat} (hz : '\x00' ∉ path)
    (hh : ∀ c ∈ r.env.param Quoting.HOME, Quoting.bareChar c = true)
    (hd : dashed (r.env.param Quoting.HOME) path = false)
    (hw : push k r (Quoting.uploadRequest host session path cwd ms) content = some after) :
    pull k { after with listing := l } (Quoting.downloadRequest host' session' path cwd' ms') =
      some content := by
  obtain ⟨f, ho, rfl⟩ := (push_iff hz).mp hw
  obtain ⟨hx, hf, -⟩ := openOut_iff.mp ho
  have hname : dash f = false := (dashed_spec hh hf hx).trans hd
  rw [pull_eq hz]
  show some (k.run _ [] (Shell.expand r.env l (Quoting.remoteWord path))) = _
  rw [expand_remote hh, ← @expand_remote r.env r.listing path hh, hx,
    run_name hname (write_same _ f content)]

theorem encode_padding (t : Text) (n : Nat) :
    encode (t ++ List.replicate n '=') = encode t ++ List.replicate n Base64.pad := by
  rw [encode_append]
  congr 1
  induction n with
  | zero => rfl
  | succ n ih =>
    rw [List.replicate_succ, List.replicate_succ, encode_cons, ih]
    rfl

/-- What an agent writes to a path as base64, padded or not, it reads back from it with its padding,
up to 48 KiB of content. -/
theorem binary_round_trip (hJ : J.Lawful) (E : Engine) (hE : E.Standard) (s : Settings)
    (w : WriteFileBinaryParams) (wc rc : Call) (hwc : writeFileBinary E s w = .ok wc)
    (hrc : readFileBinary E s ⟨w.path, w.host, w.session⟩ = .ok rc) (k : Cat) (r after : Remote)
    (l : Shell.Listing) (hz : '\x00' ∉ w.path)
    (hh : ∀ c ∈ r.env.param Quoting.HOME, Quoting.bareChar c = true)
    (hn : dashed (r.env.param Quoting.HOME) w.path = false)
    (hw : push k r wc.req wc.stdin = some after) (hfit : wc.stdin.length ≤ 48 * 1024)
    (file : Bytes) (hp : pull k { after with listing := l } rc.req = some file) (es : List Ev)
    (d : Recording)
    (h : Path (record (Pull.step J file)) (fun c => Sound J c.x) ⟨start rc.req, {}⟩ es d)
    (run : Except Errors.Error Run) (ho : d.outcome = some run) (text : Text)
    (ht : rc.render run = .ok (.success text)) (hd : d.x.world.serve.drained = some true)
    (hpump : (d.x.world.serve.pipes .out).pump ≠ .failed)
    (he : (payloads .err d.x.world.serve.queued).length ≤ captureCap) :
    ∃ n ≤ 2, text = w.contentB64 ++ List.replicate n '=' := by
  have hmax : maxToolOutput = 65536 := rfl
  have hbig : captureCap = 524288 := rfl
  obtain ⟨content, hdecode, ⟨⟨host, session, hreq⟩, hstdin, -⟩⟩ := writeFileBinary_ok hwc
  obtain ⟨host', session', hreq', -⟩ := readTool_ok hrc
  rw [hreq, hstdin] at hw
  rw [hstdin] at hfit
  have hfile : file = content := by
    rw [hreq', read_back l hz hh hn hw] at hp
    exact (Option.some.inj hp).symm
  subst hfile
  have htext := read_front hJ hrc h ho ht hd hpump
  have hfits : (Base64.encode file).length ≤ maxToolOutput := by
    rw [Base64.length_encode]
    omega
  obtain ⟨n, hle, hpad⟩ := Base64.encode_decode ((hE.decode _ _).mp hdecode)
  have hcap : file.length ≤ captureCap := by omega
  rw [Nat.sub_eq_zero_of_le he, Nat.sub_eq_zero_of_le hcap, coded, hE.encode,
    List.take_of_length_le hcap, hpad, ← encode_padding] at htext
  rw [hpad, ← encode_padding] at hfits
  exact ⟨n, hle, htext.trans (read_fits hfits)⟩

/-- Written without its padding and read back with it. -/
theorem binary_round_trip_sample : ∃ (wc rc : Call) (d : Recording) (run : _) (text : Text),
    writeFileBinary sampleEngine sampleSettings
      { path := ['x'], contentB64 := "aGk".toList, host := some "h" } = .ok wc ∧
    Path (record (Pull.step Codec.sampleJson [104, 105])) (fun c => Sound Codec.sampleJson c.x)
      ⟨start rc.req, {}⟩ (sampleServe 2 sampleDrain ++ sampleClient 2) d ∧
    d.outcome = some run ∧ rc.render run = .ok (.success text) ∧
    ∃ n ≤ 2, text = "aGk".toList ++ List.replicate n '=' := by
  obtain ⟨wc, hwc⟩ : ∃ wc, writeFileBinary sampleEngine sampleSettings
    { path := ['x'], contentB64 := "aGk".toList, host := some "h" } = .ok wc := ⟨_, rfl⟩
  obtain ⟨rc, hrc⟩ : ∃ c, readFileBinary sampleEngine sampleSettings
    { path := ['x'], host := some "h" } = .ok c := ⟨_, rfl⟩
  obtain ⟨x, hpath, hresult, hdrained, hpump, herr⟩ := Pull.sample_pull rc.req
  obtain ⟨b, hd⟩ := run_recorded hpath {}
  obtain ⟨out, err, dropped, ho⟩ := @outcome_of_result ⟨x, b⟩ _ hresult
  obtain ⟨host, session, hreq, hrender⟩ := readTool_ok hrc
  obtain ⟨text, ht⟩ : ∃ text,
      rc.render (.ok (⟨0, none, false, none⟩, out, err, dropped)) = .ok (.success text) := by
    rw [hrender]
    exact ⟨_, rfl⟩
  obtain ⟨content, hdecode, hwrites⟩ := writeFileBinary_ok hwc
  obtain rfl : content = [104, 105] := by
    have hsame : sampleEngine.decode (encode "aGk".toList) = .ok [104, 105] := by decide
    rw [hsame] at hdecode
    exact (Except.ok.inj hdecode).symm
  obtain ⟨whost, wsession, hwreq⟩ := hwrites.req
  have hw := (@push_iff plainCat sampleRemote _ ['x'] [104, 105] whost wsession none
    (some defaultTimeoutMs) (by decide)).mpr ⟨['x'], by decide, rfl⟩
  have hhome : ∀ c ∈ sampleRemote.env.param Quoting.HOME, Quoting.bareChar c = true := by
    simp [sampleRemote, Quoting.homeEnv, Quoting.bareChar]
  have hp := @read_back plainCat sampleRemote _ ['x'] [104, 105] sampleRemote.listing whost wsession
    host session none none _ (some defaultTimeoutMs) (by decide) hhome (by decide) hw
  rw [← hwreq] at hw
  rw [← hreq] at hp
  have hback := binary_round_trip Codec.sampleJson_lawful sampleEngine sampleEngine_standard
    sampleSettings { path := ['x'], contentB64 := "aGk".toList, host := some "h" } wc rc hwc hrc
    plainCat sampleRemote _ sampleRemote.listing (by decide) hhome (by decide)
    (hwrites.stdin ▸ hw) (by rw [hwrites.stdin]; decide) [104, 105] hp _ _ hd _ ho text ht hdrained
    (by simp [hpump]) (by simp [herr])
  exact ⟨wc, rc, _, _, text, hwc, hd, ho, ht, hback⟩

end RoundTrip

end ShellProxy.ToolRuns
